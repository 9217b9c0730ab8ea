import ROssFuzz.CheckedOperations
import Mathlib.Data.Nat.Basic

/-!
# Matrices stored by columns

A matrix of `rows` by `cols` lies in one vector, a column after the other, so that the
number of rows is the stride. What it holds is a function of the column and the row; copying
cells from one matrix to another is judged by these functions alone.
-/

namespace ROssFuzz.ColumnMajor
open CheckedOperations

variable {α : Type*}

/-- Where the cell at column `c.1` and row `c.2` lies. -/
def place (rows : ℕ) (c : ℕ × ℕ) : ℕ := c.2 + c.1 * rows

theorem place_lt {rows cols : ℕ} {c : ℕ × ℕ} (hcol : c.1 < cols) (hrow : c.2 < rows) :
    place rows c < rows * cols := by
  have h : (c.1 + 1) * rows ≤ cols * rows := Nat.mul_le_mul_right rows hcol
  rw [Nat.add_mul, Nat.one_mul, Nat.mul_comm cols] at h
  rw [place]
  omega

theorem place_inj {rows : ℕ} {c d : ℕ × ℕ} (hc : c.2 < rows) (hd : d.2 < rows)
    (h : place rows c = place rows d) : c = d := by
  have hcol {e : ℕ × ℕ} (he : e.2 < rows) : place rows e / rows = e.1 := by
    rw [place, Nat.add_mul_div_right _ _ (Nat.zero_lt_of_lt he), Nat.div_eq_of_lt he, Nat.zero_add]
  have hrow {e : ℕ × ℕ} (he : e.2 < rows) : place rows e % rows = e.2 := by
    rw [place, Nat.add_mul_mod_self_right, Nat.mod_eq_of_lt he]
  have h₁ : c.1 = d.1 := by rw [← hcol hc, ← hcol hd, h]
  have h₂ : c.2 = d.2 := by rw [← hrow hc, ← hrow hd, h]
  exact Prod.ext h₁ h₂

/-- The vector is that of a matrix, and the matrix holds `t`. -/
structure Holds (rows cols : ℕ) (t : ℕ × ℕ → α) (v : List α) : Prop where
  length : v.length = rows * cols
  cell : ∀ c, c.1 < cols → c.2 < rows → v[place rows c]? = some (t c)

theorem holds_replicate (rows cols : ℕ) (x : α) :
    Holds rows cols (fun _ => x) (List.replicate (rows * cols) x) := by
  refine ⟨List.length_replicate, fun c hcol hrow => ?_⟩
  rw [List.getElem?_replicate, if_pos (place_lt hcol hrow)]

variable {rows cols : ℕ} {t : ℕ × ℕ → α} {v : List α}

theorem Holds.load (h : Holds rows cols t v) {c : ℕ × ℕ} (hcol : c.1 < cols) (hrow : c.2 < rows) :
    load v (place rows c) = .ok (t c) := load_eq_ok_iff.mpr (h.cell c hcol hrow)

theorem Holds.store (h : Holds rows cols t v) {c : ℕ × ℕ} (hcol : c.1 < cols) (hrow : c.2 < rows)
    (x : α) : ∃ w, store v (place rows c) x = .ok w ∧ Holds rows cols (Function.update t c x) w := by
  have hlt : place rows c < v.length := h.length ▸ place_lt hcol hrow
  refine ⟨_, store_of_lt hlt x, by rw [List.length_set, h.length], fun d hd hd' => ?_⟩
  by_cases hcd : d = c
  · rw [hcd, List.getElem?_set_self hlt, Function.update_self]
  · rw [List.getElem?_set_ne fun heq => hcd (place_inj hrow hd' heq).symm,
      Function.update_of_ne hcd, h.cell d hd hd']

/-- The vector of the matrix that holds `t`. -/
def ofCells (rows cols : ℕ) (t : ℕ × ℕ → α) : List α :=
  (List.range (rows * cols)).map fun i => t (i / rows, i % rows)

theorem Holds.eq_ofCells (h : Holds rows cols t v) : v = ofCells rows cols t := by
  apply List.ext_getElem?
  intro i
  by_cases hi : i < rows * cols
  · have hrows : 0 < rows := Nat.pos_of_mul_pos_right (Nat.zero_lt_of_lt hi)
    have hcell := h.cell (i / rows, i % rows) (Nat.div_lt_of_lt_mul hi) (Nat.mod_lt i hrows)
    rw [place, Nat.mod_add_div'] at hcell
    simp [ofCells, hcell, hi]
  · have hlength := h.length
    rw [List.getElem?_eq_none (by omega), List.getElem?_eq_none (by simp [ofCells]; omega)]

/-- The first columns of a longer vector of the same rows, which is filled with `x`. -/
theorem Holds.extend (h : Holds rows cols t v) (cols' : ℕ) (hcols : cols ≤ cols') (x : α)
    (t' : ℕ × ℕ → α) (ht : ∀ c, c.2 < rows → t' c = if c.1 < cols then t c else x) :
    ∃ out, CheckedOperations.transfer v ((List.range v.length).map fun i => (i, i))
        (List.replicate (rows * cols') x) = .ok out ∧
      Holds rows cols' t' out := by
  have hlength : v.length ≤ rows * cols' := h.length ▸ Nat.mul_le_mul_left rows hcols
  obtain ⟨out, hout, hsize, hto, hkept⟩ := transfer_range v (List.replicate (rows * cols') x)
    (fun i => i) (n := v.length) (fun _ hi => hi) (by rwa [List.length_replicate])
  rw [List.length_replicate] at hsize
  refine ⟨out, hout, hsize, fun c hcol hrow => ?_⟩
  by_cases hc : c.1 < cols
  · have hlt : place rows c < v.length := h.length ▸ place_lt hc hrow
    rw [hto _ hlt, h.cell c hc hrow, ht c hrow, if_pos hc]
  · have hge : rows * cols ≤ place rows c := by
      rw [place, Nat.mul_comm rows]
      exact Nat.le_trans (Nat.mul_le_mul_right rows (by omega)) (Nat.le_add_left ..)
    rw [hkept _ (h.length ▸ hge), List.getElem?_replicate, if_pos (place_lt hcol hrow), ht c hrow,
      if_neg hc]

/-- Cells copied from a matrix into another: each target gets its source's, the others stay. -/
theorem Holds.transfer (hv : Holds rows cols t v) {rows' cols' : ℕ} {u t' : ℕ × ℕ → α}
    {w : List α} (hw : Holds rows' cols' u w) {moves : List ((ℕ × ℕ) × (ℕ × ℕ))}
    (hin : ∀ m ∈ moves, m.1.1 < cols ∧ m.1.2 < rows ∧ m.2.1 < cols' ∧ m.2.2 < rows')
    (hmoved : ∀ m ∈ moves, t' m.2 = t m.1)
    (hrest : ∀ c, c.1 < cols' → c.2 < rows' → (∀ m ∈ moves, m.2 ≠ c) → t' c = u c)
    (hone : ∀ m ∈ moves, ∀ m' ∈ moves, m.2 = m'.2 → m.1 = m'.1) :
    ∃ out, transfer v (moves.map fun m => (place rows m.1, place rows' m.2)) w = .ok out ∧
      Holds rows' cols' t' out := by
  obtain ⟨out, hout, hlength, hto, hkept⟩ := transfer_spec v
    (moves.map fun m => (place rows m.1, place rows' m.2)) w
    (by
      intro p hp
      obtain ⟨m, hm, rfl⟩ := List.mem_map.mp hp
      obtain ⟨h₁, h₂, h₃, h₄⟩ := hin m hm
      exact ⟨hv.length ▸ place_lt h₁ h₂, hw.length ▸ place_lt h₃ h₄⟩)
    (by
      intro p hp p' hp' heq
      obtain ⟨m, hm, rfl⟩ := List.mem_map.mp hp
      obtain ⟨m', hm', rfl⟩ := List.mem_map.mp hp'
      have hsame := place_inj (hin m hm).2.2.2 (hin m' hm').2.2.2 heq
      exact congrArg (place rows) (hone m hm m' hm' hsame))
  refine ⟨out, hout, hlength.trans hw.length, fun c hcol hrow => ?_⟩
  by_cases htarget : ∃ m ∈ moves, m.2 = c
  · obtain ⟨m, hm, rfl⟩ := htarget
    obtain ⟨h₁, h₂, -⟩ := hin m hm
    rw [hto _ (List.mem_map.mpr ⟨m, hm, rfl⟩), hv.cell _ h₁ h₂, hmoved m hm]
  · rw [hkept (place rows' c), hw.cell c hcol hrow,
      hrest c hcol hrow fun m hm heq => htarget ⟨m, hm, heq⟩]
    intro p hp heq
    obtain ⟨m, hm, rfl⟩ := List.mem_map.mp hp
    exact htarget ⟨m, hm, place_inj (hin m hm).2.2.2 hrow heq⟩

end ROssFuzz.ColumnMajor
