import Mathlib.Data.List.Basic
import Mathlib.Data.Nat.Notation

/-!
# Retrying with larger buffers

A loop makes an attempt at a size. While the answer is that the size was not enough it goes
on at the next size, as long as there is one. The answers may be different every time; the
sizes are listed in the order they were tried.
-/

namespace ROssFuzz.GrowingRetries

variable {β : Type*}

/-- How the loop ends. -/
inductive Ended (β : Type*)
  /-- no buffer of the size was to be had -/
  | refused
  /-- the size was not enough, and there is no other -/
  | givenUp
  | settled (y : β)
  deriving DecidableEq

structure Attempts (β : Type*) where
  earlier : List ℕ
  last : ℕ
  ended : Ended β
  deriving DecidableEq

namespace Attempts

def sizes (r : Attempts β) : List ℕ := r.earlier ++ [r.last]

def after (n : ℕ) (r : Attempts β) : Attempts β := { r with earlier := n :: r.earlier }

@[simp] theorem sizes_after (r : Attempts β) (n : ℕ) : (r.after n).sizes = n :: r.sizes := rfl

end Attempts

/-- `k` attempts have been made before the one at size `n`. -/
def retry (alloc : ℕ → ℕ → Bool) (decode : ℕ → ℕ → Option β) (next : ℕ → Option ℕ) :
    ℕ → ℕ → ℕ → Option (Attempts β)
  | 0, _, _ => none
  | fuel + 1, k, n =>
      if alloc k n then
        match decode k n, next n with
        | some y, _ => some ⟨[], n, .settled y⟩
        | none, none => some ⟨[], n, .givenUp⟩
        | none, some m => (retry alloc decode next fuel (k + 1) m).map (.after n)
      else some ⟨[], n, .refused⟩

section Retry
variable {alloc : ℕ → ℕ → Bool} {decode : ℕ → ℕ → Option β} {next : ℕ → Option ℕ}

/-- What the loop has come to stays with more fuel. -/
theorem retry_mono {fuel fuel' k n : ℕ} {r : Attempts β} (hle : fuel ≤ fuel')
    (h : retry alloc decode next fuel k n = some r) :
    retry alloc decode next fuel' k n = some r := by
  induction fuel generalizing fuel' k n r with
  | zero => simp [retry] at h
  | succ fuel ih =>
    obtain ⟨fuel', rfl⟩ : ∃ m, fuel' = m + 1 := ⟨fuel' - 1, by omega⟩
    rw [retry] at h ⊢
    split
    · rename_i ha
      rw [if_pos ha] at h
      cases hd : decode k n with
      | some y => simpa [hd] using h
      | none =>
        cases hn : next n with
        | none => simpa [hd, hn] using h
        | some m =>
          simp only [hd, hn] at h ⊢
          obtain ⟨r', hr', rfl⟩ := Option.map_eq_some_iff.mp h
          rw [ih (by omega) hr', Option.map_some]
    · rename_i ha
      rwa [if_neg ha] at h

/-- A rank that every retry lowers bounds the number of attempts. `P` holds of the sizes. -/
theorem retry_returns {P : ℕ → Prop} {rank : ℕ → ℕ}
    (hnext : ∀ n m, P n → next n = some m → P m ∧ rank m < rank n)
    {fuel k n : ℕ} (hP : P n) (hfuel : rank n < fuel) :
    ∃ r, retry alloc decode next fuel k n = some r := by
  induction fuel generalizing k n with
  | zero => omega
  | succ fuel ih =>
    rw [retry]
    split
    · cases hd : decode k n with
      | some y => exact ⟨_, rfl⟩
      | none =>
        cases hn : next n with
        | none => exact ⟨_, rfl⟩
        | some m =>
          obtain ⟨hPm, hrank⟩ := hnext n m hP hn
          obtain ⟨r, hr⟩ := ih (k := k + 1) hPm (by omega)
          exact ⟨r.after n, by simp [hr]⟩
    · exact ⟨_, rfl⟩

/-- The induction over a loop that has returned: how the attempt at `n` ended it, or the
attempts made from the next size on. -/
theorem retry_induct {motive : ℕ → Attempts β → Prop}
    (refused : ∀ k n, alloc k n = false → motive n ⟨[], n, .refused⟩)
    (givenUp : ∀ k n, decode k n = none → next n = none → motive n ⟨[], n, .givenUp⟩)
    (settled : ∀ k n y, decode k n = some y → motive n ⟨[], n, .settled y⟩)
    (again : ∀ k n m r, decode k n = none → next n = some m → motive m r → motive n (r.after n))
    {fuel k n : ℕ} {r : Attempts β} (h : retry alloc decode next fuel k n = some r) :
    motive n r := by
  induction fuel generalizing k n r with
  | zero => simp [retry] at h
  | succ fuel ih =>
    rw [retry] at h
    split at h
    · cases hd : decode k n with
      | some y =>
        obtain rfl := by simpa [hd] using h
        exact settled k n y hd
      | none =>
        cases hn : next n with
        | none =>
          obtain rfl := by simpa [hd, hn] using h
          exact givenUp k n hd hn
        | some m =>
          simp only [hd, hn] at h
          obtain ⟨r', hr', rfl⟩ := Option.map_eq_some_iff.mp h
          exact again k n m r' hd hn (ih hr')
    · rename_i ha
      obtain rfl := by simpa using h
      exact refused k n (by simpa using ha)

theorem sizes_head {fuel k n : ℕ} {r : Attempts β}
    (h : retry alloc decode next fuel k n = some r) : ∃ rest, r.sizes = n :: rest := by
  refine retry_induct (motive := fun n r => ∃ rest, r.sizes = n :: rest) ?_ ?_ ?_ ?_ h
  · exact fun _ _ _ => ⟨[], rfl⟩
  · exact fun _ _ _ _ => ⟨[], rfl⟩
  · exact fun _ _ _ _ => ⟨[], rfl⟩
  · exact fun _ n _ r _ _ _ => ⟨r.sizes, r.sizes_after n⟩

/-- Where the next size is larger, the sizes increase. -/
theorem sizes_increase {P : ℕ → Prop} (hnext : ∀ n m, P n → next n = some m → P m ∧ n < m)
    {fuel k n : ℕ} {r : Attempts β} (hP : P n)
    (h : retry alloc decode next fuel k n = some r) : r.sizes.Pairwise (· < ·) := by
  have hone : ∀ n : ℕ, [n].Pairwise (· < ·) ∧ ∀ i ∈ [n], n ≤ i := by simp
  refine (retry_induct
    (motive := fun n r => P n → r.sizes.Pairwise (· < ·) ∧ ∀ i ∈ r.sizes, n ≤ i)
    ?_ ?_ ?_ ?_ h hP).1
  · exact fun _ n _ _ => hone n
  · exact fun _ n _ _ _ => hone n
  · exact fun _ n _ _ _ => hone n
  · intro k n m r _ hm ih hP
    obtain ⟨hPm, hlt⟩ := hnext n m hP hm
    obtain ⟨hsorted, hge⟩ := ih hPm
    rw [Attempts.sizes_after]
    refine ⟨?_, ?_⟩
    · exact List.pairwise_cons.mpr ⟨fun i hi => Nat.lt_of_lt_of_le hlt (hge i hi), hsorted⟩
    · intro i hi
      rcases List.mem_cons.mp hi with rfl | hi
      · exact Nat.le_refl _
      · exact Nat.le_of_lt (Nat.lt_of_lt_of_le hlt (hge i hi))

/-- Where the sizes that are not enough are the ones below `size`, and each of these has a
next one within a bound that every buffer is granted in, the loop ends at a size that is
enough, and stays within the bound. -/
theorem reaches {size bound : ℕ} (hexact : ∀ k n, decode k n = none ↔ n < size)
    (halloc : ∀ k n, n ≤ bound → alloc k n = true)
    (hnext : ∀ n, n < size → ∃ m ≤ bound, next n = some m) {fuel k n : ℕ} {r : Attempts β}
    (hn : n ≤ bound) (h : retry alloc decode next fuel k n = some r) :
    (∃ y, r.ended = .settled y) ∧ size ≤ r.last ∧ ∀ i ∈ r.sizes, i ≤ bound := by
  refine retry_induct (motive := fun n r => n ≤ bound →
    (∃ y, r.ended = .settled y) ∧ size ≤ r.last ∧ ∀ i ∈ r.sizes, i ≤ bound) ?_ ?_ ?_ ?_ h hn
  · intro k n ha hn
    rw [halloc k n hn] at ha
    cases ha
  · intro k n hd hm hn
    obtain ⟨m, -, hm'⟩ := hnext n ((hexact k n).mp hd)
    rw [hm] at hm'
    cases hm'
  · intro k n y hd hn
    have henough : ¬ n < size := fun hlt => by simp [(hexact k n).mpr hlt] at hd
    refine ⟨⟨y, rfl⟩, Nat.le_of_not_lt henough, ?_⟩
    simpa [Attempts.sizes] using hn
  · intro k n m r hd hm ih hn
    obtain ⟨m', hle, hm'⟩ := hnext n ((hexact k n).mp hd)
    obtain rfl : m' = m := by simpa [hm'] using hm
    obtain ⟨hended, hlast, hall⟩ := ih hle
    refine ⟨hended, hlast, fun i hi => ?_⟩
    rw [Attempts.sizes_after] at hi
    rcases List.mem_cons.mp hi with rfl | hi
    · exact hn
    · exact hall i hi

end Retry
end ROssFuzz.GrowingRetries
