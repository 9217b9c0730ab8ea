import Mathlib.Init

/-!
# A setting and what is believed of it

A setting is changed by a call that may fail, and the value it was last set to is kept beside
it to save calls. The belief is recorded whether the call has succeeded or not, so one
failure is enough for it to be wrong from then on.
-/

namespace ROssFuzz.CachedSettings

/-- `believed` is `none` before the first call. -/
structure Cached (V : Type*) where
  believed : Option V
  actual : V

variable {V : Type*}

/-- What is believed is so. -/
def Cached.Agrees (s : Cached V) : Prop := ∀ v, s.believed = some v → s.actual = v

variable [DecidableEq V]

/-- Make the setting `want`, with a call only where it is believed to be another. -/
def Cached.ensure (want : V) (succeeds : Bool) (s : Cached V) : Cached V :=
  if s.believed = some want then s
  else ⟨some want, if succeeds then want else s.actual⟩

/-- A call that is made succeeds, or finds the setting as it should be. -/
def Cached.Effective (want : V) (succeeds : Bool) (s : Cached V) : Prop :=
  s.believed ≠ some want → succeeds = true ∨ s.actual = want

namespace Cached
variable {s : Cached V} {want : V} {succeeds : Bool}

theorem ensure_believed : (s.ensure want succeeds).believed = some want := by
  unfold ensure
  split <;> simp_all

theorem ensure_actual_of_effective (h : s.Agrees) (he : s.Effective want succeeds) :
    (s.ensure want succeeds).actual = want := by
  unfold ensure
  split
  · exact h want ‹_›
  · rcases he ‹_› with hs | ha <;> simp_all

/-- The belief stays right exactly where the calls do what they should. -/
theorem ensure_agrees_iff (h : s.Agrees) :
    (s.ensure want succeeds).Agrees ↔ s.Effective want succeeds := by
  constructor
  · intro hagrees hne
    have hactual := hagrees want ensure_believed
    rw [ensure, if_neg hne] at hactual
    cases succeeds with
    | true => exact .inl rfl
    | false => exact .inr hactual
  · intro he v hv
    rw [ensure_believed] at hv
    obtain rfl := Option.some.inj hv
    exact ensure_actual_of_effective h he

/-- Nothing that wants what is believed makes a call. -/
theorem ensure_of_believed (h : s.believed = some want) : s.ensure want succeeds = s :=
  if_pos h

end Cached
end ROssFuzz.CachedSettings
