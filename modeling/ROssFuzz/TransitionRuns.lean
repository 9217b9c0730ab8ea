import Mathlib.Data.List.Count
import Mathlib.Data.List.Induction

/-!
# Traced runs of scheduled systems

A system is an executable step function: the scheduler names an action, and the
step either refuses it or answers with the event it produced and the next state.
A run keeps the events in the order they happened, oldest first, so that temporal
statements are statements about the trace and invariants may mention it.
-/

namespace ROssFuzz.TransitionRuns

/-- Initial states and an executable step, one action of the scheduler at a time. -/
structure System (σ α ε : Type*) where
  init : σ → Prop
  step : σ → α → Option (ε × σ)

namespace System

variable {σ α ε : Type*} (S : System σ α ε)

/-- Executions between two states, with their events in order. -/
inductive Steps (s : σ) : List ε → σ → Prop
  | nil : Steps s [] s
  | snoc {es t a e u} (tail : Steps s es t) (step : S.step t a = some (e, u)) :
      Steps s (es ++ [e]) u

/-- Executions from an initial state. -/
def Run (es : List ε) (s : σ) : Prop := ∃ s₀, S.init s₀ ∧ S.Steps s₀ es s

variable {S}

theorem Run.init {s : σ} (h : S.init s) : S.Run [] s := ⟨s, h, .nil⟩

theorem Run.snoc {es : List ε} {s t : σ} {a : α} {e : ε} (h : S.Run es s)
    (hs : S.step s a = some (e, t)) : S.Run (es ++ [e]) t := by
  obtain ⟨s₀, h₀, hrun⟩ := h
  exact ⟨s₀, h₀, hrun.snoc hs⟩

theorem Run.append {es fs : List ε} {s t : σ} (h : S.Run es s) (h' : S.Steps s fs t) :
    S.Run (es ++ fs) t := by
  induction h' with
  | nil => simpa using h
  | snoc _ hs ih => simpa [List.append_assoc] using ih.snoc hs

/-- The induction rule: what holds of an initial state with nothing behind it, and is
kept by every step out of a reachable state, holds of every run. -/
theorem Run.induct {I : List ε → σ → Prop} (init : ∀ s, S.init s → I [] s)
    (step : ∀ es s a e t, S.Run es s → I es s → S.step s a = some (e, t) → I (es ++ [e]) t)
    {es : List ε} {s : σ} (h : S.Run es s) : I es s := by
  obtain ⟨s₀, h₀, hrun⟩ := h
  induction hrun with
  | nil => exact init s₀ h₀
  | snoc tail hs ih => exact step _ _ _ _ _ ⟨s₀, h₀, tail⟩ ih hs

/-- The rule for invariants of the state alone. -/
theorem Run.invariant {I : σ → Prop} (init : ∀ s, S.init s → I s)
    (step : ∀ s a e t, I s → S.step s a = some (e, t) → I t)
    {es : List ε} {s : σ} (h : S.Run es s) : I s :=
  h.induct (I := fun _ s => I s) init fun _ s a e t _ hi hs => step s a e t hi hs

theorem Steps.split {es fs : List ε} {s u : σ} (h : S.Steps s (es ++ fs) u) :
    ∃ t, S.Steps s es t ∧ S.Steps t fs u := by
  induction fs using List.reverseRecOn generalizing u with
  | nil => exact ⟨u, by simpa using h, .nil⟩
  | append_singleton fs f ih =>
    rw [← List.append_assoc] at h
    generalize hl : es ++ fs ++ [f] = l at h
    cases h with
    | nil => simp at hl
    | snoc tail hs =>
      obtain ⟨hpre, hlast⟩ := List.append_inj' hl rfl
      obtain rfl : f = _ := by simpa using hlast
      subst hpre
      obtain ⟨t, ht, htail⟩ := ih tail
      exact ⟨t, ht, htail.snoc hs⟩

theorem Steps.eq_of_nil {s u : σ} (h : S.Steps s [] u) : u = s := by
  generalize hes : ([] : List ε) = es at h
  cases h with
  | nil => rfl
  | snoc => simp at hes

theorem Steps.head {f : ε} {fs : List ε} {s u : σ} (h : S.Steps s (f :: fs) u) :
    ∃ a t, S.step s a = some (f, t) ∧ S.Steps t fs u := by
  have hcons : S.Steps s ([f] ++ fs) u := h
  obtain ⟨t, hfirst, hrest⟩ := hcons.split
  generalize hl : [f] = l at hfirst
  cases hfirst with
  | nil => simp at hl
  | @snoc es v a e _ tail hs =>
    have hes : es = [] := by
      have hlen := congrArg List.length hl
      simpa using hlen.symm
    subst hes
    obtain rfl : f = e := by simpa using hl
    have hv : v = s := by
      generalize hn : [] = n at tail
      cases tail with
      | nil => rfl
      | snoc => simp at hn
    exact ⟨a, t, hv ▸ hs, hrest⟩

/-- An event of a trace was produced by a step out of the state its prefix reached. -/
theorem Run.split {pre post : List ε} {e : ε} {u : σ} (h : S.Run (pre ++ e :: post) u) :
    ∃ s a t, S.Run pre s ∧ S.step s a = some (e, t) ∧ S.Steps t post u := by
  obtain ⟨s₀, h₀, hrun⟩ := h
  obtain ⟨s, hpre, hrest⟩ := hrun.split
  obtain ⟨a, t, hs, hpost⟩ := hrest.head
  exact ⟨s, a, t, ⟨s₀, h₀, hpre⟩, hs, hpost⟩

/-- What every step keeps is kept by an execution. -/
theorem Steps.preserve {P : σ → Prop} (hP : ∀ s a e t, P s → S.step s a = some (e, t) → P t)
    {es : List ε} {s u : σ} (h : S.Steps s es u) (hs : P s) : P u := by
  induction h with
  | nil => exact hs
  | snoc _ hstep ih => exact hP _ _ _ _ ih hstep

/-- Bounded progress towards a goal: `P s k` says that at most `k` more of its own
steps separate a component from the goal. Steps of the others keep `k`, and nothing
that is not `quiet` happens before the goal does. -/
theorem Steps.until {P : σ → ℕ → Prop} {goal quiet : ε → Prop} {own : ε → Bool}
    (hP : ∀ s k a e t, P s k → S.step s a = some (e, t) →
      goal e ∨ (quiet e ∧ (if own e then ∃ k', k = k' + 1 ∧ P t k' else P t k)))
    {es : List ε} {s u : σ} {k : ℕ} (h : S.Steps s es u) (hs : P s k) :
    (∃ a e b, es = a ++ e :: b ∧ goal e ∧ (∀ x ∈ a, quiet x) ∧ a.countP own ≤ k) ∨
      ((∀ x ∈ es, quiet x) ∧ ∃ k', P u k' ∧ k' + es.countP own = k) := by
  induction h with
  | nil => exact .inr ⟨by simp, k, hs, by simp⟩
  | @snoc es t a e u _ hstep ih =>
    rcases ih with ⟨x, y, z, rfl, hgoal, hbefore⟩ | ⟨hquiet, k', hk', hcount⟩
    · exact .inl ⟨x, y, z ++ [e], by simp, hgoal, hbefore⟩
    · rcases hP t k' a e u hk' hstep with hg | ⟨hq, hown⟩
      · exact .inl ⟨es, e, [], rfl, hg, hquiet, by omega⟩
      · have hall : ∀ x ∈ es ++ [e], quiet x := by
          intro x hx
          rcases List.mem_append.mp hx with hx | hx
          · exact hquiet x hx
          · obtain rfl : x = e := by simpa using hx
            exact hq
        cases ho : own e with
        | true =>
          obtain ⟨k'', rfl, hP'⟩ : ∃ k'', k' = k'' + 1 ∧ P u k'' := by simpa [ho] using hown
          exact .inr ⟨hall, k'', hP', by simp [List.countP_append, ho]; omega⟩
        | false =>
          have hP' : P u k' := by simpa [ho] using hown
          exact .inr ⟨hall, k', hP', by simp [List.countP_append, ho]; omega⟩

/-- Up to an event that closes an interval: what holds where the interval opens, every step
keeps of the events since and the state, or else closes it. -/
theorem Run.since_trace {G : List ε → σ → Prop} (closes : ε → Prop) {pre mid : List ε} {s u : σ}
    (hopen : S.Run pre s) (hG : G [] s)
    (hkeep : ∀ fs s a e t, S.Run (pre ++ fs) s → G fs s → S.step s a = some (e, t) →
      closes e ∨ G (fs ++ [e]) t)
    (h : S.Steps s mid u) (hmid : ∀ x ∈ mid, ¬ closes x) : G mid u := by
  induction h with
  | nil => exact hG
  | snoc tail hs ih =>
    have hat := ih fun x hx => hmid x (List.mem_append_left _ hx)
    exact (hkeep _ _ _ _ _ (hopen.append tail) hat hs).resolve_left (hmid _ (by simp))

/-- From an event that opens an interval to one that closes it: what opening
establishes and every step inside keeps, or else closes. -/
theorem Run.since {G : σ → Prop} (opens closes : ε → Prop)
    (hopen : ∀ es s a e t, S.Run es s → S.step s a = some (e, t) → opens e → G t)
    (hkeep : ∀ es s a e t, S.Run es s → G s → S.step s a = some (e, t) → closes e ∨ G t)
    {pre mid : List ε} {e : ε} {u : σ} (h : S.Run (pre ++ e :: mid) u) (he : opens e)
    (hmid : ∀ x ∈ mid, ¬ closes x) : G u := by
  obtain ⟨s, a, t, hpre, hstep, hpost⟩ := h.split
  exact (hpre.snoc hstep).since_trace (G := fun _ => G) closes
    (hopen _ _ _ _ _ hpre hstep he) (fun _ _ _ _ _ hr => hkeep _ _ _ _ _ hr) hpost hmid

/-- A system over another one: what each of its steps does to the part that is the other's
is a step there, with the event that shows of it, or nothing. -/
theorem Run.project {σ' α' ε' : Type*} {T : System σ' α' ε'} (f : σ → σ') (g : ε → Option ε')
    (init : ∀ s, S.init s → T.init (f s))
    (step : ∀ s a e t, S.step s a = some (e, t) →
      (∃ a' e', g e = some e' ∧ T.step (f s) a' = some (e', f t)) ∨ g e = none ∧ f t = f s)
    {es : List ε} {s : σ} (h : S.Run es s) : T.Run (es.filterMap g) (f s) := by
  refine h.induct (I := fun es s => T.Run (es.filterMap g) (f s)) (fun s h₀ => .init (init s h₀)) ?_
  intro es s a e t _ hi hs
  rcases step s a e t hs with ⟨a', e', he, hstep⟩ | ⟨he, hsame⟩
  · simpa [List.filterMap_append, he] using hi.snoc hstep
  · simpa [List.filterMap_append, he, hsame] using hi

/-- The same where only the steps out of reachable states are looked at. -/
theorem Run.simulate {σ' α' ε' : Type*} {T : System σ' α' ε'} (f : σ → σ') (g : ε → Option ε')
    (init : ∀ s, S.init s → T.init (f s))
    (step : ∀ es s a e t, S.Run es s → S.step s a = some (e, t) →
      (∃ a' e', g e = some e' ∧ T.step (f s) a' = some (e', f t)) ∨ g e = none ∧ f t = f s)
    {es : List ε} {s : σ} (h : S.Run es s) : T.Run (es.filterMap g) (f s) := by
  refine h.induct (I := fun es s => T.Run (es.filterMap g) (f s)) (fun s h₀ => .init (init s h₀)) ?_
  intro es s a e t hrun hi hs
  rcases step es s a e t hrun hs with ⟨a', e', he, hstep⟩ | ⟨he, hsame⟩
  · simpa [List.filterMap_append, he] using hi.snoc hstep
  · simpa [List.filterMap_append, he, hsame] using hi

variable (S)

/-- The same system under schedules whose every step meets a condition on the state
it is taken in. -/
def restrict (P : σ → α → Prop) [∀ s a, Decidable (P s a)] : System σ α ε where
  init := S.init
  step s a := if P s a then S.step s a else none

variable {S}

theorem restrict_step {P : σ → α → Prop} [∀ s a, Decidable (P s a)] {s t : σ} {a : α} {e : ε} :
    (S.restrict P).step s a = some (e, t) ↔ P s a ∧ S.step s a = some (e, t) := by
  simp [restrict]

theorem Run.of_restrict {P : σ → α → Prop} [∀ s a, Decidable (P s a)] {es : List ε} {s : σ}
    (h : (S.restrict P).Run es s) : S.Run es s := by
  refine Run.induct (S := S.restrict P) (I := S.Run) (fun _ h₀ => Run.init h₀) ?_ h
  intro es s a e t _ hr hs
  exact hr.snoc (restrict_step.mp hs).2

variable (S)

/-- Running a schedule, as a computation. -/
def exec (s : σ) : List α → Option (List ε × σ)
  | [] => some ([], s)
  | a :: as => do
    let (e, t) ← S.step s a
    let (es, u) ← exec t as
    some (e :: es, u)

variable {S}

theorem Steps.cons {s t u : σ} {a : α} {e : ε} {es : List ε} (hs : S.step s a = some (e, t))
    (h : S.Steps t es u) : S.Steps s (e :: es) u := by
  induction h with
  | nil => exact Steps.nil.snoc hs
  | snoc _ hstep ih => exact Steps.snoc ih hstep

theorem exec_steps {as : List α} {es : List ε} {s u : σ} (h : S.exec s as = some (es, u)) :
    S.Steps s es u := by
  induction as generalizing s es with
  | nil =>
    obtain ⟨rfl, rfl⟩ : [] = es ∧ s = u := by simpa [exec] using h
    exact .nil
  | cons a as ih =>
    cases hs : S.step s a with
    | none => simp [exec, hs] at h
    | some p =>
      cases ht : S.exec p.2 as with
      | none => simp [exec, hs, ht] at h
      | some q =>
        obtain ⟨rfl, rfl⟩ : p.1 :: q.1 = es ∧ q.2 = u := by simpa [exec, hs, ht] using h
        exact Steps.cons hs (ih ht)

/-- A schedule that runs is a run; `f` reads off it what is wanted. -/
theorem Run.of_schedule {β : Type*} (f : List ε × σ → β) (s : σ) (as : List α) {y : β}
    (h₀ : S.init s) (h : (S.exec s as).map f = some y) : ∃ es u, S.Run es u ∧ f (es, u) = y := by
  obtain ⟨⟨es, u⟩, hu, rfl⟩ := Option.map_eq_some_iff.mp h
  exact ⟨es, u, ⟨s, h₀, exec_steps hu⟩, rfl⟩

/-- The same with the events known; `f` is of the last state. -/
theorem Run.of_exec {β : Type*} (f : σ → β) (s : σ) (as : List α) {es : List ε} {y : β}
    (h₀ : S.init s) (h : (S.exec s as).map (Prod.map id f) = some (es, y)) :
    ∃ u, S.Run es u ∧ f u = y := by
  obtain ⟨fs, u, hrun, heq⟩ := Run.of_schedule (Prod.map id f) s as h₀ h
  obtain ⟨rfl, rfl⟩ : fs = es ∧ f u = y := by simpa using heq
  exact ⟨u, hrun, rfl⟩

end System
end ROssFuzz.TransitionRuns
