import Mathlib.Data.List.Count
import Mathlib.Data.List.Infix
import Mathlib.Data.List.Basic
import Mathlib.Data.Nat.Init

/-!
# Splitting a list at its first separators

A list is cut at each separator until a number of cuts have been made, and the rest stays
as it is. The pieces, joined with single separators, are the list again, however few cuts
were allowed.
-/

namespace ROssFuzz.LimitedSplits

variable {α : Type*} [DecidableEq α] {sep : α}

/-- At most `k` cuts. -/
def cuts (sep : α) : ℕ → List α → List (List α)
  | 0, l => [l]
  | k + 1, l =>
      if sep ∈ l then l.take (l.idxOf sep) :: cuts sep k (l.drop (l.idxOf sep + 1)) else [l]

theorem cuts_of_notMem (k : ℕ) {l : List α} (h : sep ∉ l) : cuts sep k l = [l] := by
  cases k <;> simp [cuts, h]

/-- The cut at the first separator. -/
theorem cuts_append {before : List α} (k : ℕ) (after : List α) (h : sep ∉ before) :
    cuts sep (k + 1) (before ++ sep :: after) = before :: cuts sep k after := by
  have hplace : (before ++ sep :: after).idxOf sep = before.length := by
    rw [List.idxOf_append_of_notMem h]
    simp
  rw [cuts, if_pos (by simp), hplace]
  simp [List.drop_append, List.drop_eq_nil_of_le]

theorem cuts_ne_nil (k : ℕ) (l : List α) : cuts sep k l ≠ [] := by
  cases k with
  | zero => simp [cuts]
  | succ k => by_cases h : sep ∈ l <;> simp [cuts, h]

/-- A property of a list and what it is cut into, by the cuts. -/
theorem cuts_induct {P : ℕ → List α → List (List α) → Prop} (zero : ∀ l, P 0 l [l])
    (none : ∀ k l, sep ∉ l → P (k + 1) l [l])
    (cut : ∀ k before after, sep ∉ before → P k after (cuts sep k after) →
      P (k + 1) (before ++ sep :: after) (before :: cuts sep k after))
    (k : ℕ) (l : List α) : P k l (cuts sep k l) := by
  induction k generalizing l with
  | zero => exact zero l
  | succ k ih =>
    by_cases h : sep ∈ l
    · obtain ⟨before, after, rfl, hbefore⟩ := List.eq_append_cons_of_mem h
      rw [cuts_append k after hbefore]
      exact cut k before after hbefore (ih after)
    · rw [cuts_of_notMem _ h]
      exact none k l h

/-- Nothing is lost and nothing is added. -/
theorem intercalate_cuts (k : ℕ) (l : List α) : [sep].intercalate (cuts sep k l) = l := by
  refine cuts_induct (P := fun _ l pieces => [sep].intercalate pieces = l) ?_ ?_ ?_ k l
  · simp
  · simp
  · intro k before after _ ih
    have hne : cuts sep k after ≠ [] := cuts_ne_nil k after
    obtain ⟨piece, pieces, hpieces⟩ := List.exists_cons_of_ne_nil hne
    rw [hpieces] at ih ⊢
    rw [List.intercalate_cons_cons, ih]
    simp

theorem length_cuts (k : ℕ) (l : List α) :
    (cuts sep k l).length = min (1 + l.count sep) (k + 1) := by
  refine cuts_induct
    (P := fun k l pieces => pieces.length = min (1 + l.count sep) (k + 1)) ?_ ?_ ?_ k l
  · simp
  · intro k l h
    simp [List.count_eq_zero.mpr h]
  · intro k before after h ih
    rw [List.length_cons, ih, List.count_append, List.count_cons_self, List.count_eq_zero.mpr h]
    omega

/-- Only the last piece may have separators in it. -/
theorem notMem_of_mem_dropLast (k : ℕ) (l : List α) :
    ∀ piece ∈ (cuts sep k l).dropLast, sep ∉ piece := by
  refine cuts_induct (P := fun _ _ pieces => ∀ piece ∈ pieces.dropLast, sep ∉ piece) ?_ ?_ ?_ k l
  · simp
  · simp
  · intro k before after h ih
    rw [List.dropLast_cons_of_ne_nil (cuts_ne_nil k after)]
    simpa using ⟨h, ih⟩

end ROssFuzz.LimitedSplits
