import Mathlib.Data.Int.Notation

/-!
# Bisection

Searching a range of indices by halving it, where a comparison says at each index whether
what is sought is there, before it or behind it. The indices are exact integers, and the
ranges that are halved on the way can be spoken about.
-/

namespace ROssFuzz.Bisection

/-- Search from `l` to `r`, both included. -/
def bisect (order : ℤ → Ordering) (l r : ℤ) : Option ℤ :=
  if l ≤ r then
    match order ((l + r) / 2) with
    | .eq => some ((l + r) / 2)
    | .lt => bisect order l ((l + r) / 2 - 1)
    | .gt => bisect order ((l + r) / 2 + 1) r
  else none
termination_by (r + 1 - l).toNat

/-- The ranges that the search of a range halves. -/
inductive Visits (order : ℤ → Ordering) : ℤ → ℤ → ℤ → ℤ → Prop
  | here {l r} (h : l ≤ r) : Visits order l r l r
  | left {l r l' r'} (h : l ≤ r) (hm : order ((l + r) / 2) = .lt)
      (tail : Visits order l ((l + r) / 2 - 1) l' r') : Visits order l r l' r'
  | right {l r l' r'} (h : l ≤ r) (hm : order ((l + r) / 2) = .gt)
      (tail : Visits order ((l + r) / 2 + 1) r l' r') : Visits order l r l' r'

/-- From `l` to `r`, what is before an index is before every later one, and what is behind
an index is behind every earlier one. -/
def Ascending (order : ℤ → Ordering) (l r : ℤ) : Prop :=
  ∀ i j, l ≤ i → i ≤ j → j ≤ r → (order i = .lt → order j = .lt) ∧ (order j = .gt → order i = .gt)

variable {order : ℤ → Ordering} {l r l' r' : ℤ}

theorem bisect_sound {m : ℤ} (h : bisect order l r = some m) :
    l ≤ m ∧ m ≤ r ∧ order m = .eq := by
  induction l, r using bisect.induct order with
  | case1 l r hlr heq =>
    rw [bisect, if_pos hlr, heq] at h
    obtain rfl := Option.some.inj h
    exact ⟨by omega, by omega, heq⟩
  | case2 l r hlr hlt ih =>
    rw [bisect, if_pos hlr, hlt] at h
    obtain ⟨hl, hr, hm⟩ := ih h
    exact ⟨hl, by omega, hm⟩
  | case3 l r hlr hgt ih =>
    rw [bisect, if_pos hlr, hgt] at h
    obtain ⟨hl, hr, hm⟩ := ih h
    exact ⟨by omega, hr, hm⟩
  | case4 l r hlr =>
    rw [bisect, if_neg hlr] at h
    cases h

theorem Ascending.mono (h : Ascending order l r) (hl : l ≤ l') (hr : r' ≤ r) :
    Ascending order l' r' := fun i j hi hij hj => h i j (by omega) hij (by omega)

/-- In an ascending range nothing is overlooked. -/
theorem bisect_complete (horder : Ascending order l r) (h : bisect order l r = none) {i : ℤ}
    (hl : l ≤ i) (hr : i ≤ r) : order i ≠ .eq := by
  induction l, r using bisect.induct order with
  | case1 l r hlr heq =>
    rw [bisect, if_pos hlr, heq] at h
    cases h
  | case2 l r hlr hlt ih =>
    rw [bisect, if_pos hlr, hlt] at h
    by_cases him : i ≤ (l + r) / 2 - 1
    · exact ih (horder.mono (Int.le_refl l) (by omega)) h hl him
    · rw [(horder _ i (by omega) (by omega) hr).1 hlt]
      exact nofun
  | case3 l r hlr hgt ih =>
    rw [bisect, if_pos hlr, hgt] at h
    by_cases him : (l + r) / 2 + 1 ≤ i
    · exact ih (horder.mono (by omega) (Int.le_refl r)) h him hr
    · rw [(horder i _ hl (by omega) (by omega)).2 hgt]
      exact nofun
  | case4 l r hlr => omega

theorem Visits.bounds (h : Visits order l r l' r') : l ≤ l' ∧ l' ≤ r' ∧ r' ≤ r := by
  induction h with
  | here h => exact ⟨Int.le_refl _, h, Int.le_refl _⟩
  | left h hm tail ih => omega
  | right h hm tail ih => omega

/-- What is behind everything is sought up to the last index alone. -/
theorem visits_last (hgt : ∀ i, order i = .gt) (h : l ≤ r) : Visits order l r r r := by
  induction l, r using bisect.induct order with
  | case1 l r hlr heq => rw [hgt] at heq; cases heq
  | case2 l r hlr hlt ih => rw [hgt] at hlt; cases hlt
  | case3 l r hlr hm ih =>
    by_cases hlast : l = r
    · rw [hlast]
      exact .here (Int.le_refl r)
    · exact .right hlr hm (ih (by omega))
  | case4 l r hlr => exact absurd h hlr

end ROssFuzz.Bisection
