import ROssFuzz.TransitionRuns
import Mathlib.Algebra.BigOperators.Group.List.Basic
import Mathlib.Algebra.Order.Ring.Nat

/-!
# Charged schedules

The potential method. Some of the actions of a schedule are charged for, and actions and events
bring something in. When no step adds more to a potential than it brings in, less its charge, all
the charges of a schedule are covered by what was there at its start and what it brings in.
-/

namespace ROssFuzz.TransitionRuns

/-- A constant for each element of a kind. -/
theorem sum_map_ite {β : Type*} (p : β → Bool) (c : ℕ) (l : List β) :
    (l.map fun x => if p x then c else 0).sum = c * l.countP p := by
  induction l with
  | nil => rfl
  | cons x l ih =>
    rw [List.map_cons, List.sum_cons, ih, List.countP_cons, Nat.mul_add]
    cases p x <;> simp [Nat.add_comm]

namespace System

variable {σ α ε : Type*} {S : System σ α ε}

theorem exec_cons {s u : σ} {a : α} {as : List α} {es : List ε}
    (h : S.exec s (a :: as) = some (es, u)) :
    ∃ e t fs, S.step s a = some (e, t) ∧ S.exec t as = some (fs, u) ∧ es = e :: fs := by
  simp only [exec, Option.bind_eq_bind, Option.bind_eq_some_iff, Option.some.injEq,
    Prod.mk.injEq] at h
  obtain ⟨⟨e, t⟩, hstep, ⟨fs, v⟩, hrest, rfl, rfl⟩ := h
  exact ⟨e, t, fs, hstep, hrest, rfl⟩

theorem Run.of_exec_init {s u : σ} {as : List α} {es : List ε} (h₀ : S.init s)
    (h : S.exec s as = some (es, u)) : S.Run es u := ⟨s, h₀, exec_steps h⟩

/-- `P` is kept by every step. -/
theorem exec_charges {P : σ → Prop} (potential : σ → ℕ) (charged : α → Bool) (paid : α → ℕ)
    (earned : ε → ℕ) (hP : ∀ s a e t, P s → S.step s a = some (e, t) →
      P t ∧ (if charged a then 1 else 0) + potential t ≤ potential s + paid a + earned e)
    {s u : σ} {as : List α} {es : List ε} (h : S.exec s as = some (es, u)) (hs : P s) :
    as.countP charged + potential u ≤ potential s + (as.map paid).sum + (es.map earned).sum := by
  induction as generalizing s es with
  | nil =>
    obtain ⟨rfl, rfl⟩ : [] = es ∧ s = u := by simpa [exec] using h
    simp
  | cons a as ih =>
    obtain ⟨e, t, fs, hstep, hrest, rfl⟩ := exec_cons h
    obtain ⟨ht, hcharge⟩ := hP s a e t hs hstep
    have hlater := ih hrest ht
    simp only [List.countP_cons, List.map_cons, List.sum_cons]
    omega

end System
end ROssFuzz.TransitionRuns
