import ROssFuzz.CheckedOperations
import Mathlib.Algebra.Order.BigOperators.Group.List
import Mathlib.Algebra.Order.Ring.Int

/-!
# The day of the year

`glibc_fix` turns a `tm_yday` that is known into a month and a day: it walks `month_days`, whose
entries are read in order, and subtracts the length of each month that is over.
-/

namespace ROssFuzz.YearDays
open CheckedOperations

/-- One year as `days_in_month` and `days_in_year` have it. -/
structure Year where
  monthDays : List ℤ
  days : ℤ
  twelve : monthDays.length = 12
  positive : ∀ n ∈ monthDays, 0 < n
  total : monthDays.sum = days

/-- The walk, with the months that it has not read. Past the last one it reads what follows the
array. -/
def monthWalk : List ℤ → ℕ → ℤ → Except Stop (ℕ × ℤ)
  | [], _, _ => .error .fault
  | tmp :: months, mon, yday =>
      if tmp ≤ yday then monthWalk months (mon + 1) (yday - tmp) else .ok (mon, yday)

/-- What `glibc_fix` makes of `tm_yday`, if it is known. -/
inductive Fix
  | unknown
  | invalid
  | found (mon : ℕ) (day : ℤ)
  deriving DecidableEq

/-- `NA_INTEGER`. -/
def naInteger : ℤ := intMin

def glibcFix (year : Year) (yday : ℤ) : Except Stop Fix := do
  if yday ≠ naInteger then
    if yday < 0 ∨ year.days ≤ yday then return .invalid
    let (mon, day) ← monthWalk year.monthDays 0 yday
    return .found mon day
  else return .unknown

/-- Before, the walk was not checked. -/
def oldGlibcFix (year : Year) (yday : ℤ) : Except Stop Fix := do
  if yday ≠ naInteger then
    let (mon, day) ← monthWalk year.monthDays 0 yday
    return .found mon day
  else return .unknown

/-- Day `day` of month `mon`, both from zero, is day `yday` of the year. -/
def Falls (months : List ℤ) (mon : ℕ) (day yday : ℤ) : Prop :=
  ∃ n, months[mon]? = some n ∧ 0 ≤ day ∧ day < n ∧ (months.take mon).sum + day = yday

theorem falls_zero {n day yday : ℤ} {months : List ℤ} :
    Falls (n :: months) 0 day yday ↔ 0 ≤ day ∧ day < n ∧ day = yday := by
  simp [Falls]

theorem falls_succ {n day yday : ℤ} {months : List ℤ} {mon : ℕ} :
    Falls (n :: months) (mon + 1) day yday ↔ Falls months mon day (yday - n) := by
  simp only [Falls, List.getElem?_cons_succ, List.take_succ_cons, List.sum_cons]
  refine exists_congr fun k => ?_
  have hshift : n + (months.take mon).sum + day = yday ↔
      (months.take mon).sum + day = yday - n := by omega
  rw [hshift]

theorem take_sum_nonneg {months : List ℤ} (hpos : ∀ n ∈ months, 0 < n) (k : ℕ) :
    0 ≤ (months.take k).sum :=
  List.sum_nonneg fun n hn => (hpos n (List.mem_of_mem_take hn)).le

theorem Falls.nonneg {months : List ℤ} (hpos : ∀ n ∈ months, 0 < n) {mon : ℕ} {day yday : ℤ}
    (h : Falls months mon day yday) : 0 ≤ yday := by
  obtain ⟨n, -, hday, -, hsum⟩ := h
  have htake := take_sum_nonneg hpos mon
  omega

/-- The walk stops at the month that the day falls in. -/
theorem monthWalk_eq_ok_iff {months : List ℤ} (hpos : ∀ n ∈ months, 0 < n) {yday : ℤ}
    (hyday : 0 ≤ yday) (start mon : ℕ) (day : ℤ) :
    monthWalk months start yday = .ok (mon, day) ↔
      ∃ k, mon = start + k ∧ Falls months k day yday := by
  induction months generalizing start yday with
  | nil => simp [monthWalk, Falls]
  | cons n months ih =>
    have hrest : ∀ m ∈ months, 0 < m := fun m hm => hpos m (List.mem_cons_of_mem _ hm)
    rw [monthWalk]
    by_cases hover : n ≤ yday
    · rw [if_pos hover, ih hrest (by omega)]
      constructor
      · rintro ⟨k, rfl, hk⟩
        exact ⟨k + 1, by omega, falls_succ.mpr hk⟩
      · rintro ⟨k, rfl, hk⟩
        cases k with
        | zero =>
          obtain ⟨-, hlt, rfl⟩ := falls_zero.mp hk
          omega
        | succ k => exact ⟨k, by omega, falls_succ.mp hk⟩
    · rw [if_neg hover]
      constructor
      · intro h
        obtain ⟨rfl, rfl⟩ : start = mon ∧ yday = day := by simpa using h
        exact ⟨0, rfl, falls_zero.mpr ⟨hyday, by omega, rfl⟩⟩
      · rintro ⟨k, rfl, hk⟩
        cases k with
        | zero =>
          obtain ⟨-, -, rfl⟩ := falls_zero.mp hk
          rfl
        | succ k =>
          have hlate := (falls_succ.mp hk).nonneg hrest
          omega

/-- Where the year is over it runs off the end. -/
theorem monthWalk_of_le {months : List ℤ} (hpos : ∀ n ∈ months, 0 < n) {yday : ℤ}
    (hyday : months.sum ≤ yday) (start : ℕ) : monthWalk months start yday = .error .fault := by
  induction months generalizing start yday with
  | nil => rfl
  | cons n months ih =>
    have hrest : ∀ m ∈ months, 0 < m := fun m hm => hpos m (List.mem_cons_of_mem _ hm)
    have hsum : 0 ≤ months.sum := List.sum_nonneg fun m hm => (hrest m hm).le
    rw [List.sum_cons] at hyday
    rw [monthWalk, if_pos (by omega)]
    exact ih hrest (by omega) _

theorem monthWalk_of_lt {months : List ℤ} {yday : ℤ} (hnonneg : 0 ≤ yday)
    (hyday : yday < months.sum) (start : ℕ) : ∃ r, monthWalk months start yday = .ok r := by
  induction months generalizing start yday with
  | nil =>
    rw [List.sum_nil] at hyday
    omega
  | cons n months ih =>
    rw [List.sum_cons] at hyday
    rw [monthWalk]
    by_cases hover : n ≤ yday
    · rw [if_pos hover]
      exact ih (by omega) (by omega) _
    · rw [if_neg hover]
      exact ⟨_, rfl⟩

variable (year : Year)

theorem Year.days_nonneg : 0 ≤ year.days := by
  rw [← year.total]
  exact List.sum_nonneg fun n hn => (year.positive n hn).le

/-- What falls on a day of the year is within it. -/
theorem Year.within {mon : ℕ} {day yday : ℤ} (h : Falls year.monthDays mon day yday) :
    mon < 12 ∧ 0 ≤ yday ∧ yday < year.days := by
  have hnonneg := h.nonneg year.positive
  have hwalk := (monthWalk_eq_ok_iff year.positive hnonneg 0 mon day).mpr ⟨mon, by omega, h⟩
  have hyday : yday < year.days := by
    by_contra hlate
    have hend := monthWalk_of_le year.positive (by rw [year.total]; omega : _ ≤ yday) 0
    rw [hwalk] at hend
    cases hend
  obtain ⟨n, hn, -⟩ := h
  obtain ⟨hmon, -⟩ := List.getElem?_eq_some_iff.mp hn
  exact ⟨by rwa [year.twelve] at hmon, hnonneg, hyday⟩

/-- Nothing falls on a day outside the year. -/
theorem Year.not_falls {yday : ℤ} (hout : yday < 0 ∨ year.days ≤ yday) (mon : ℕ) (day : ℤ) :
    ¬ Falls year.monthDays mon day yday := by
  intro h
  have hwithin := year.within h
  omega

theorem monthWalk_of_neg {yday : ℤ} (h : yday < 0) :
    monthWalk year.monthDays 0 yday = .ok (0, yday) := by
  have htwelve := year.twelve
  have hpos := year.positive
  generalize year.monthDays = months at htwelve hpos
  cases months with
  | nil => cases htwelve
  | cons n months =>
    have hn := hpos n List.mem_cons_self
    rw [monthWalk, if_neg (by omega)]

/-- What the old code makes of the walk. -/
theorem oldGlibcFix_of_ne {yday : ℤ} (h : yday ≠ naInteger) :
    oldGlibcFix year yday =
      (monthWalk year.monthDays 0 yday).map fun r => .found r.1 r.2 := by
  rw [oldGlibcFix, if_pos h]
  rcases monthWalk year.monthDays 0 yday with _ | ⟨mon, day⟩ <;> rfl

theorem glibcFix_of_out {yday : ℤ} (h : yday ≠ naInteger) (hout : yday < 0 ∨ year.days ≤ yday) :
    glibcFix year yday = .ok .invalid := by
  rw [glibcFix, if_pos h, if_pos hout]
  rfl

/-- Within the year the check changes nothing. -/
theorem glibcFix_of_lt {yday : ℤ} (hnonneg : 0 ≤ yday) (hyday : yday < year.days) :
    ∃ mon day, Falls year.monthDays mon day yday ∧
      oldGlibcFix year yday = .ok (.found mon day) ∧
      glibcFix year yday = .ok (.found mon day) := by
  obtain ⟨⟨mon, day⟩, hwalk⟩ := monthWalk_of_lt hnonneg (by rwa [year.total]) 0
  obtain ⟨k, hk, hfalls⟩ := (monthWalk_eq_ok_iff year.positive hnonneg 0 mon day).mp hwalk
  obtain rfl : mon = k := by omega
  have hknown : yday ≠ naInteger := by
    have hna : naInteger < 0 := by decide
    omega
  have hin : ¬ (yday < 0 ∨ year.days ≤ yday) := by omega
  have hnew : glibcFix year yday = oldGlibcFix year yday := by
    rw [glibcFix, oldGlibcFix, if_pos hknown, if_pos hknown, if_neg hin]
  have hold : oldGlibcFix year yday = .ok (.found mon day) := by
    rw [oldGlibcFix_of_ne year hknown, hwalk]
    rfl
  exact ⟨mon, day, hfalls, hold, hnew.trans hold⟩

/-- A day falls on one month and one day of it. -/
theorem Falls.unique {yday : ℤ} {mon mon' : ℕ} {day day' : ℤ}
    (h : Falls year.monthDays mon day yday) (h' : Falls year.monthDays mon' day' yday) :
    mon' = mon ∧ day' = day := by
  have hnonneg := h.nonneg year.positive
  have hwalk := (monthWalk_eq_ok_iff year.positive hnonneg 0 mon day).mpr ⟨mon, by omega, h⟩
  have hwalk' := (monthWalk_eq_ok_iff year.positive hnonneg 0 mon' day').mpr ⟨mon', by omega, h'⟩
  rw [hwalk] at hwalk'
  simpa [eq_comm] using hwalk'

/-- A day of the year gets the month and the day that it falls on, one that is not is `invalid`,
and `month_days` is read inside of its twelve entries. Without the check a day past the end of the
year is looked for past the end of `month_days`, and one before its start stays in the first
month. -/
theorem glibcFix_falls (yday : ℤ) :
    (∀ mon day, glibcFix year yday = .ok (.found mon day) ↔
      mon < 12 ∧ Falls year.monthDays mon day yday) ∧
    (glibcFix year yday = .ok .invalid ↔
      yday ≠ naInteger ∧ (yday < 0 ∨ year.days ≤ yday)) ∧
    (glibcFix year yday = .ok .unknown ↔ yday = naInteger) ∧
    (∃ r, glibcFix year yday = .ok r) ∧
    (oldGlibcFix year yday = .error .fault ↔ year.days ≤ yday) ∧
    (∀ mon day, oldGlibcFix year yday = .ok (.found mon day) ↔
      Falls year.monthDays mon day yday ∨
        yday ≠ naInteger ∧ yday < 0 ∧ mon = 0 ∧ day = yday) ∧
    (oldGlibcFix year yday = .ok .unknown ↔ yday = naInteger) := by
  have hdays := year.days_nonneg
  by_cases hknown : yday = naInteger
  · have hna : naInteger < 0 := by decide
    have hno := @year.not_falls yday (.inl (hknown ▸ hna))
    have hnew : glibcFix year yday = .ok .unknown := if_neg (not_not_intro hknown)
    have hold : oldGlibcFix year yday = .ok .unknown := if_neg (not_not_intro hknown)
    have hlate : ¬ year.days ≤ yday := by omega
    refine ⟨by simp [hnew, hno], by simp [hnew, eq_true hknown],
      iff_of_true hnew hknown, ⟨_, hnew⟩, by simp [hold, hlate],
      by simp [hold, hno, eq_true hknown], iff_of_true hold hknown⟩
  by_cases hout : yday < 0 ∨ year.days ≤ yday
  · have hnew := glibcFix_of_out year hknown hout
    have hno := year.not_falls hout
    refine ⟨by simp [hnew, hno], by simp [hnew, hknown, hout], by simp [hnew, hknown],
      ⟨_, hnew⟩, ?_⟩
    rw [oldGlibcFix_of_ne year hknown]
    rcases hout with hneg | hlate
    · have hearly : ¬ year.days ≤ yday := by omega
      rw [monthWalk_of_neg year hneg]
      simp [Except.map, hearly, hno, hneg, hknown, eq_comm]
    · have hlast : ¬ yday < 0 := by omega
      rw [monthWalk_of_le year.positive (by rwa [year.total]) 0]
      simp [Except.map, hlate, hno, hlast, hknown]
  · have hneg : ¬ yday < 0 := by omega
    have hlate : ¬ year.days ≤ yday := by omega
    obtain ⟨mon, day, hfalls, hold, hnew⟩ :=
      glibcFix_of_lt year (not_lt.mp hneg) (not_le.mp hlate)
    have hiff : ∀ m d, Falls year.monthDays m d yday ↔ mon = m ∧ day = d := by
      refine fun m d => ⟨fun h => ?_, ?_⟩
      · obtain ⟨rfl, rfl⟩ := Falls.unique year hfalls h
        exact ⟨rfl, rfl⟩
      · rintro ⟨rfl, rfl⟩
        exact hfalls
    have hmon := (year.within hfalls).1
    refine ⟨fun m d => ?_, by simp [hnew, hout], by simp [hnew, hknown], ⟨_, hnew⟩,
      by simp [hold, hlate], fun m d => ?_, by simp [hold, hknown]⟩
    · rw [hiff, hnew, and_iff_right_of_imp (by rintro ⟨rfl, -⟩; exact hmon)]
      simp
    · rw [hiff, hold]
      simp [hneg]

/-- The Gregorian calendar has such years. -/
def gregorian (leap : Bool) : Year where
  monthDays := [31, if leap then 29 else 28, 31, 30, 31, 30, 31, 31, 30, 31, 30, 31]
  days := if leap then 366 else 365
  twelve := rfl
  positive := by cases leap <;> decide
  total := by cases leap <;> rfl

/-- The last day of a leap year, which other years do not have. -/
example : glibcFix (gregorian true) 365 = .ok (.found 11 30) ∧
    glibcFix (gregorian false) 365 = .ok .invalid ∧
    oldGlibcFix (gregorian false) 365 = .error .fault := by
  decide

end ROssFuzz.YearDays
