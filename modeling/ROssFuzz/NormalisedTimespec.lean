import Mathlib.Data.Int.Order.Basic
import Mathlib.Tactic.Linarith

/-!
# Normalised timespecs and whole seconds

A reading of a clock is a number of seconds and a nanosecond part below 10⁹. The
seconds are any integer. Elapsed whole seconds are the floor of the difference, and
the usual difference of seconds with a borrow of one computes it.
-/

namespace ROssFuzz

/-- A `struct timespec` as a clock returns it: the nanoseconds are normalised. -/
@[ext] structure Timespec where
  sec : ℤ
  nsec : ℕ
  normal : nsec < 1000000000 := by decide
  deriving DecidableEq

namespace Timespec

/-- Nanoseconds since the epoch. -/
def nanos (t : Timespec) : ℤ := t.sec * 1000000000 + t.nsec

/-- The zero of static storage. -/
def zero : Timespec := ⟨0, 0, by decide⟩

/-- The reading of a whole second, and the one half a second later. -/
def second (sec : ℤ) : Timespec := ⟨sec, 0, by decide⟩

def half (sec : ℤ) : Timespec := ⟨sec, 500000000, by decide⟩

instance : LE Timespec := ⟨fun a b => a.nanos ≤ b.nanos⟩

instance (a b : Timespec) : Decidable (a ≤ b) := inferInstanceAs (Decidable (a.nanos ≤ b.nanos))

theorem le_def {a b : Timespec} : a ≤ b ↔ a.nanos ≤ b.nanos := Iff.rfl

theorem le_refl (a : Timespec) : a ≤ a := Int.le_refl _

theorem le_trans {a b c : Timespec} (h : a ≤ b) (h' : b ≤ c) : a ≤ c := Int.le_trans h h'

/-- The whole seconds between two readings, rounded down. -/
def elapsed (now since : Timespec) : ℤ := (now.nanos - since.nanos) / 1000000000

/-- The seconds subtract, with one borrowed when the nanoseconds do. -/
theorem elapsed_eq_borrow (now since : Timespec) :
    elapsed now since =
      if now.nsec < since.nsec then now.sec - since.sec - 1 else now.sec - since.sec := by
  have hn := now.normal
  have hs := since.normal
  unfold elapsed nanos
  split <;> omega

theorem elapsed_mono {now now' since since' : Timespec} (h : now ≤ now') (h' : since' ≤ since) :
    elapsed now since ≤ elapsed now' since' := by
  rw [le_def] at h h'
  unfold elapsed
  omega

/-- A reading at most one second later shows at most one whole second more, from any
starting point that is no earlier. -/
theorem elapsed_le_succ {now now' since since' : Timespec}
    (h : now'.nanos ≤ now.nanos + 1000000000) (h' : since ≤ since') :
    elapsed now' since' ≤ elapsed now since + 1 := by
  rw [le_def] at h'
  unfold elapsed
  omega

end Timespec
end ROssFuzz
