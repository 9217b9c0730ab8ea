import ROssFuzz.EvalBudget

/-!
# How often the evaluator polls

`eval` counts its calls in a static variable and checks for interrupts when the count is past
`EVAL_COUNT_DELTA`. A check that returns sets the count back once the finalizers have run, which
may evaluate in turn; one that raises an error does not. The count goes on from one input to the
next, and while the budget is paused.

With the hook of the harness, an input is evaluated a bounded number of times.
-/

namespace ROssFuzz.EvalPolling
open TransitionRuns

/-- `EVAL_COUNT_DELTA`. -/
def evalCountDelta : ℕ := 10

structure State (E : Type) where
  harness : EvalBudget.State E
  evalcount : ℕ
  /-- The evaluations whose check has returned and that have not yet set the count back. -/
  pending : ℕ
  deriving DecidableEq

inductive Event (E : Type)
  | harness (e : EvalBudget.Event E)
  /-- an evaluation, and what comes of its check if there is one -/
  | eval (n : ℕ) (phase : EvalBudget.Phase) (outcome : Option EvalBudget.Outcome)
  | setBack (n : ℕ) (phase : EvalBudget.Phase)
  | abandoned
  deriving DecidableEq

/-- `abandon` is an R error that something inside R handles. -/
inductive Action (E : Type)
  | harness (a : EvalBudget.Action E)
  | eval (expired : Bool)
  | setBack
  | abandon

variable {E : Type}

/-- Where R returns nothing is pending; an error abandons what is. -/
def afterwards (a : EvalBudget.Action E) (e : EvalBudget.Event E) (pending : ℕ) : Option ℕ :=
  match a, e with
  | .run _, _ | .next, _ | .finish false, _ => if pending = 0 then some 0 else none
  | .finish true, _ | .jump, _ => some 0
  | .check _, .check _ _ outcome => some (if outcome.raises then 0 else pending)
  | .check _, _ => some pending

def step (delta : ℕ) (s : State E) : Action E → Option (Event E × State E)
  | .harness a => do
      let (e, harness) ← EvalBudget.step s.harness a
      let pending ← afterwards a e s.pending
      some (.harness e, { s with harness := harness, pending := pending })
  | .eval expired => do
      let phase ← s.harness.pc.phase
      if delta < s.evalcount + 1 then
        let (outcome, budget) := EvalBudget.evalPollBudget expired s.harness.budget
        some (.eval s.harness.input phase (some outcome), {
          harness := { s.harness with
            budget := budget
            pc := if outcome.raises then s.harness.pc.raised else s.harness.pc }
          evalcount := s.evalcount + 1
          pending := if outcome.raises then 0 else s.pending + 1 })
      else some (.eval s.harness.input phase none, { s with evalcount := s.evalcount + 1 })
  | .setBack => do
      let phase ← s.harness.pc.phase
      if 0 < s.pending then
        some (.setBack s.harness.input phase, { s with evalcount := 0, pending := s.pending - 1 })
      else none
  | .abandon => some (.abandoned, { s with pending := s.pending - 1 })

def system (delta : ℕ) (E : Type) : System (State E) (Action E) (Event E) where
  init s := s.harness = .initial ∧ s.pending = 0
  step := step delta

/-- What a step can do. -/
inductive Stepped (delta : ℕ) (s : State E) : Event E → State E → Prop
  | harness {a e harness pending} (hstep : EvalBudget.step s.harness a = some (e, harness))
      (hpending : afterwards a e s.pending = some pending) :
      Stepped delta s (.harness e) { s with harness := harness, pending := pending }
  | polled {phase} (expired : Bool) (hphase : s.harness.pc.phase = some phase)
      (hdelta : delta < s.evalcount + 1) {outcome budget}
      (hpoll : EvalBudget.evalPollBudget expired s.harness.budget = (outcome, budget)) :
      Stepped delta s (.eval s.harness.input phase (some outcome)) {
        harness := { s.harness with
          budget := budget
          pc := if outcome.raises then s.harness.pc.raised else s.harness.pc }
        evalcount := s.evalcount + 1
        pending := if outcome.raises then 0 else s.pending + 1 }
  | unpolled {phase} (hphase : s.harness.pc.phase = some phase) (hdelta : s.evalcount + 1 ≤ delta) :
      Stepped delta s (.eval s.harness.input phase none) { s with evalcount := s.evalcount + 1 }
  | setBack {phase} (hphase : s.harness.pc.phase = some phase) (hpending : 0 < s.pending) :
      Stepped delta s (.setBack s.harness.input phase)
        { s with evalcount := 0, pending := s.pending - 1 }
  | abandoned : Stepped delta s .abandoned { s with pending := s.pending - 1 }

theorem step_stepped {delta : ℕ} {s s' : State E} {a : Action E} {e : Event E}
    (hs : step delta s a = some (e, s')) : Stepped delta s e s' := by
  cases a with
  | harness a =>
    obtain ⟨e', harness, hstep, pending, hpending, rfl, rfl⟩ : ∃ e' harness,
        EvalBudget.step s.harness a = some (e', harness) ∧ ∃ pending,
          afterwards a e' s.pending = some pending ∧ .harness e' = e ∧
            { s with harness := harness, pending := pending } = s' := by
      simpa [step, Option.bind_eq_some_iff] using hs
    exact .harness hstep hpending
  | eval expired =>
    cases hphase : s.harness.pc.phase with
    | none => simp [step, hphase] at hs
    | some phase =>
      by_cases hdelta : delta < s.evalcount + 1
      · simp only [step, hphase, hdelta, if_true] at hs
        obtain ⟨rfl, rfl⟩ : _ = e ∧ _ = s' := by simpa using hs
        exact .polled expired hphase hdelta rfl
      · simp only [step, hphase, hdelta, if_false] at hs
        obtain ⟨rfl, rfl⟩ : _ = e ∧ _ = s' := by simpa using hs
        exact .unpolled hphase (by omega)
  | setBack =>
    cases hphase : s.harness.pc.phase with
    | none => simp [step, hphase] at hs
    | some phase =>
      by_cases hpending : 0 < s.pending
      · simp only [step, hphase, hpending, if_true] at hs
        obtain ⟨rfl, rfl⟩ : _ = e ∧ _ = s' := by simpa using hs
        exact .setBack hphase hpending
      · simp [step, hphase, hpending] at hs
  | abandon =>
    obtain ⟨rfl, rfl⟩ : _ = e ∧ _ = s' := by simpa [step] using hs
    exact .abandoned

/-! ### What the harness sees -/

/-- An event as the harness has it, where it takes part. -/
def Event.seen : Event E → Option (EvalBudget.Event E)
  | .harness e => some e
  | .eval n phase (some outcome) => some (.check n phase outcome)
  | _ => none

theorem Stepped.seen {delta : ℕ} {s s' : State E} {e : Event E} (h : Stepped delta s e s') :
    (∃ b e', e.seen = some e' ∧ EvalBudget.step s.harness b = some (e', s'.harness)) ∨
      e.seen = none ∧ s'.harness = s.harness := by
  cases h with
  | harness hstep => exact .inl ⟨_, _, rfl, hstep⟩
  | polled expired hphase _ hpoll =>
    exact .inl ⟨.check expired, _, rfl, by simp [EvalBudget.step, hphase, hpoll]⟩
  | unpolled | setBack | abandoned => exact .inr ⟨rfl, rfl⟩

/-- A run, without what the harness does not see, is one of the harness. -/
theorem Run.seen {delta : ℕ} {es : List (Event E)} {s : State E}
    (h : (system delta E).Run es s) :
    (EvalBudget.system E).Run (es.filterMap Event.seen) s.harness :=
  System.Run.project (S := system delta E) (T := EvalBudget.system E) State.harness Event.seen
    (fun _ hinit => hinit.1) (fun _ _ _ _ hs => (step_stepped hs).seen) h

private theorem phase_eq_evaluating {pc : EvalBudget.Pc E} :
    pc.phase = some .evaluating ↔ pc = .evaluating := by
  cases pc <;> simp [EvalBudget.Pc.phase]

private theorem step_evalCheck {s s' : EvalBudget.State E} {a : EvalBudget.Action E}
    {e : EvalBudget.Event E} {n : ℕ} (hs : EvalBudget.step s a = some (e, s'))
    (he : e.evalCheck n = true) : n = s.input ∧ s.pc = .evaluating := by
  cases a with
  | check expired =>
    obtain ⟨phase, hphase, rfl, -⟩ : ∃ phase, s.pc.phase = some phase ∧
        .check s.input phase (EvalBudget.evalPollBudget expired s.budget).1 = e ∧ _ = s' := by
      simpa [EvalBudget.step] using hs
    cases phase <;> simp only [EvalBudget.Event.evalCheck, Bool.false_eq_true, beq_iff_eq] at he
    exact ⟨he.symm, phase_eq_evaluating.mp hphase⟩
  | next =>
    simp only [EvalBudget.step, EvalBudget.next] at hs
    (repeat' split at hs) <;> simp at hs <;> simp [← hs.1, EvalBudget.Event.evalCheck] at he
  | run parsed | finish error | jump =>
    simp only [EvalBudget.step] at hs
    (repeat' split at hs) <;> simp at hs <;> simp [← hs.1, EvalBudget.Event.evalCheck] at he

/-- The budget bounds the checks. -/
theorem evalCheck_le {es : List (EvalBudget.Event E)} {s : EvalBudget.State E}
    (h : (EvalBudget.system E).Run es s) (n : ℕ) :
    es.countP (EvalBudget.Event.evalCheck n) ≤ 20000 := by
  refine h.induct (I := fun es _ => es.countP (EvalBudget.Event.evalCheck n) ≤ 20000) ?_ ?_
  · simp
  · intro es s a e t hrun ih hs
    by_cases he : e.evalCheck n = true
    · obtain ⟨rfl, hpc⟩ := step_evalCheck hs he
      obtain ⟨hpos, -, hleft⟩ := (EvalBudget.Run.inv hrun).left s.budget
        (by simp [EvalBudget.State.left, hpc])
      have hle : ([e].countP (EvalBudget.Event.evalCheck s.input)) ≤ 1 := List.countP_le_length
      rw [EvalBudget.fuzzEvalBudget] at hleft
      rw [List.countP_append]
      omega
    · simpa [List.countP_append, he] using ih

/-! ### Counting -/

/-- An evaluation of the input's. -/
def Event.evaluates (n : ℕ) : Event E → Bool
  | .eval m .evaluating _ => m == n
  | _ => false

def Event.polls (n : ℕ) : Event E → Bool
  | .eval m .evaluating (some _) => m == n
  | _ => false

def Event.doesNotPoll (n : ℕ) : Event E → Bool
  | .eval m .evaluating none => m == n
  | _ => false

def Event.setsBack (n : ℕ) : Event E → Bool
  | .setBack m .evaluating => m == n
  | _ => false

/-- The evaluation of an expression of the input begins. -/
def Event.begins (n : ℕ) : Event E → Bool
  | .harness (.evaluates m _) => m == n
  | _ => false

/-- `delta` evaluations fit between two moments at which the count is set back, or at which the
budget is resumed, and only an evaluation that has polled sets it back. -/
structure Inv (delta : ℕ) (es : List (Event E)) (s : State E) : Prop where
  all : ∀ n, es.countP (Event.doesNotPoll n) ≤
      delta * (es.countP (Event.setsBack n) + es.countP (Event.begins n)) ∧
    es.countP (Event.setsBack n) ≤ es.countP (Event.polls n)
  here : s.harness.pc = .evaluating →
    es.countP (Event.doesNotPoll s.harness.input) + (delta - s.evalcount) ≤
      delta * (es.countP (Event.setsBack s.harness.input) +
        es.countP (Event.begins s.harness.input)) ∧
    es.countP (Event.setsBack s.harness.input) + s.pending ≤
      es.countP (Event.polls s.harness.input)

/-- An expression is being evaluated: it was, or it begins to be. -/
private theorem step_evaluating {s s' : EvalBudget.State E} {a : EvalBudget.Action E}
    {e : EvalBudget.Event E} {pending pending' : ℕ} (hs : EvalBudget.step s a = some (e, s'))
    (hpending : afterwards a e pending = some pending') (hpc : s'.pc = .evaluating) :
    s'.input = s.input ∧ (s.pc = .evaluating ∧ pending' ≤ pending ∨
      pending' = 0 ∧ ∃ x, e = .evaluates s.input x) := by
  cases a with
  | check expired =>
    obtain ⟨phase, -, rfl, rfl⟩ : ∃ phase, s.pc.phase = some phase ∧
        .check s.input phase (EvalBudget.evalPollBudget expired s.budget).1 = e ∧ _ = s' := by
      simpa [EvalBudget.step] using hs
    refine ⟨rfl, .inl ?_⟩
    obtain rfl := Option.some.inj hpending
    cases hraises : (EvalBudget.evalPollBudget expired s.budget).1.raises with
    | true =>
      rw [hraises] at hpc
      cases hold : s.pc <;> simp [hold, EvalBudget.Pc.raised] at hpc
    | false =>
      rw [hraises] at hpc
      exact ⟨by simpa using hpc, by simp⟩
  | next =>
    have hzero : pending' = 0 := by
      simp only [afterwards] at hpending
      split at hpending <;> simp_all
    simp only [EvalBudget.step, EvalBudget.next] at hs
    (repeat' split at hs) <;> simp at hs <;> obtain ⟨rfl, rfl⟩ := hs <;> simp at hpc
    exact ⟨rfl, .inr ⟨hzero, _, rfl⟩⟩
  | run parsed | finish error | jump =>
    simp only [EvalBudget.step] at hs
    (repeat' split at hs) <;> simp at hs <;> obtain ⟨rfl, rfl⟩ := hs <;> simp at hpc

private theorem room_succ (delta a b : ℕ) : delta * (a + 1 + b) = delta * (a + b) + delta := by
  rw [Nat.add_right_comm, Nat.mul_succ]

/-- An event that counts for nothing but a beginning. -/
private theorem count_keep {e : Event E} (hcount : ∀ n, e.doesNotPoll n = false ∧
    e.setsBack n = false ∧ e.polls n = false) (es : List (Event E)) (n : ℕ) :
    (es ++ [e]).countP (Event.doesNotPoll n) = es.countP (Event.doesNotPoll n) ∧
    (es ++ [e]).countP (Event.setsBack n) = es.countP (Event.setsBack n) ∧
    (es ++ [e]).countP (Event.polls n) = es.countP (Event.polls n) := by
  obtain ⟨h₁, h₂, h₃⟩ := hcount n
  simp [List.countP_append, h₁, h₂, h₃]

private theorem Inv.keep {delta : ℕ} {es : List (Event E)} {s s' : State E} {e : Event E}
    (hi : Inv delta es s) (hcount : ∀ n, e.doesNotPoll n = false ∧ e.setsBack n = false ∧
      e.polls n = false)
    (hhere : s'.harness.pc = .evaluating → s'.harness.input = s.harness.input ∧
      (s.harness.pc = .evaluating ∧ s.evalcount ≤ s'.evalcount ∧ s'.pending ≤ s.pending ∨
        s'.pending = 0 ∧ e.begins s.harness.input = true)) :
    Inv delta (es ++ [e]) s' := by
  have hbegins : ∀ n, (es ++ [e]).countP (Event.begins n) =
      es.countP (Event.begins n) + [e].countP (Event.begins n) := fun n => List.countP_append
  have hmore : ∀ n, delta * (es.countP (Event.setsBack n) + es.countP (Event.begins n)) ≤
      delta * (es.countP (Event.setsBack n) + (es ++ [e]).countP (Event.begins n)) :=
    fun n => Nat.mul_le_mul_left delta (by have := hbegins n; omega)
  refine ⟨fun n => ?_, fun hpc => ?_⟩
  · obtain ⟨h₁, h₂, h₃⟩ := count_keep hcount es n
    rw [h₁, h₂, h₃]
    exact ⟨Nat.le_trans (hi.all n).1 (hmore n), (hi.all n).2⟩
  · obtain ⟨hinput, hhere⟩ := hhere hpc
    obtain ⟨h₁, h₂, h₃⟩ := count_keep hcount es s.harness.input
    rw [hinput, h₁, h₂, h₃]
    rcases hhere with ⟨hold, hevalcount, hpending⟩ | ⟨hpending, hbegin⟩
    · obtain ⟨hroom, hpolls⟩ := hi.here hold
      have hle := hmore s.harness.input
      exact ⟨by omega, by omega⟩
    · obtain ⟨hroom, hpolls⟩ := hi.all s.harness.input
      have hone : [e].countP (Event.begins s.harness.input) = 1 := by simp [hbegin]
      rw [hbegins, hone, ← Nat.add_assoc, Nat.mul_succ]
      exact ⟨by omega, by omega⟩

/-- An event of the input that is being evaluated: what it does to the counts of this input is
enough. -/
private theorem Inv.count {delta : ℕ} {es : List (Event E)} {s s' : State E} {e : Event E}
    (hi : Inv delta es s) (hinput : s'.harness.input = s.harness.input)
    (hother : ∀ n, n ≠ s.harness.input → e.doesNotPoll n = false ∧ e.setsBack n = false ∧
      e.polls n = false ∧ e.begins n = false)
    (hroom : (es ++ [e]).countP (Event.doesNotPoll s.harness.input) + (delta - s'.evalcount) ≤
      delta * ((es ++ [e]).countP (Event.setsBack s.harness.input) +
        (es ++ [e]).countP (Event.begins s.harness.input)))
    (hpolls : (es ++ [e]).countP (Event.setsBack s.harness.input) + s'.pending ≤
      (es ++ [e]).countP (Event.polls s.harness.input)) : Inv delta (es ++ [e]) s' := by
  refine ⟨fun n => ?_, fun _ => by rw [hinput]; exact ⟨hroom, hpolls⟩⟩
  by_cases hn : n = s.harness.input
  · rw [hn]
    exact ⟨by omega, by omega⟩
  · obtain ⟨h₁, h₂, h₃, h₄⟩ := hother n hn
    simpa [List.countP_append, h₁, h₂, h₃, h₄] using hi.all n

/-- Where no expression is being evaluated a step of R's counts for nothing. -/
private theorem phase_ne {s : State E} {phase : EvalBudget.Phase} (hpc : s.harness.pc ≠ .evaluating)
    (hphase : s.harness.pc.phase = some phase) : phase ≠ .evaluating := by
  rintro rfl
  exact hpc (phase_eq_evaluating.mp hphase)

private theorem phase_of_pc {s : State E} {phase : EvalBudget.Phase} (hpc : s.harness.pc = .evaluating)
    (hphase : s.harness.pc.phase = some phase) : phase = .evaluating := by
  rw [hpc] at hphase
  exact (Option.some.inj hphase).symm

theorem inv_step {delta : ℕ} {es : List (Event E)} {s s' : State E} {e : Event E}
    (hi : Inv delta es s) (hs : Stepped delta s e s') : Inv delta (es ++ [e]) s' := by
  cases hs with
  | harness hstep hpending =>
    refine hi.keep (fun n => ⟨rfl, rfl, rfl⟩) fun hpc => ?_
    obtain ⟨hinput, h | ⟨h, x, rfl⟩⟩ := step_evaluating hstep hpending hpc
    · exact ⟨hinput, .inl ⟨h.1, Nat.le_refl _, h.2⟩⟩
    · exact ⟨hinput, .inr ⟨h, by simp [Event.begins]⟩⟩
  | abandoned =>
    exact hi.keep (fun n => ⟨rfl, rfl, rfl⟩) fun hpc =>
      ⟨rfl, .inl ⟨hpc, Nat.le_refl _, Nat.sub_le _ _⟩⟩
  | @polled phase expired hphase hdelta outcome budget hpoll =>
    by_cases hpc : s.harness.pc = .evaluating
    · obtain rfl := phase_of_pc hpc hphase
      obtain ⟨hroom, hpolls⟩ := hi.here hpc
      refine hi.count rfl (fun n hn => ?_) ?_ ?_
      · simp [Event.doesNotPoll, Event.setsBack, Event.polls, Event.begins, Ne.symm hn]
      · simp only [List.countP_append, List.countP_singleton, Event.doesNotPoll, Event.setsBack,
          Event.begins, Bool.false_eq_true, if_false, Nat.add_zero]
        omega
      · simp only [List.countP_append, List.countP_singleton, Event.setsBack, Event.polls, beq_self_eq_true,
          Bool.false_eq_true, if_false, if_true, Nat.add_zero]
        split <;> omega
    · have hne := phase_ne hpc hphase
      refine hi.keep (fun n => ?_) fun hpc' => absurd hpc' ?_
      · cases phase <;> simp_all [Event.doesNotPoll, Event.setsBack, Event.polls]
      · cases hold : s.harness.pc <;> cases outcome <;>
          simp_all [EvalBudget.Pc.raised, EvalBudget.Outcome.raises]
  | @unpolled phase hphase hdelta =>
    by_cases hpc : s.harness.pc = .evaluating
    · obtain rfl := phase_of_pc hpc hphase
      obtain ⟨hroom, hpolls⟩ := hi.here hpc
      refine hi.count rfl (fun n hn => ?_) ?_ ?_
      · simp [Event.doesNotPoll, Event.setsBack, Event.polls, Event.begins, Ne.symm hn]
      · simp only [List.countP_append, List.countP_singleton, Event.doesNotPoll, Event.setsBack,
          Event.begins, beq_self_eq_true, Bool.false_eq_true, if_false, if_true, Nat.add_zero]
        omega
      · simp only [List.countP_append, List.countP_singleton, Event.setsBack, Event.polls,
          Bool.false_eq_true, if_false, Nat.add_zero]
        omega
    · have hne := phase_ne hpc hphase
      refine hi.keep (fun n => ?_) fun hpc' => absurd hpc' hpc
      cases phase <;> simp_all [Event.doesNotPoll, Event.setsBack, Event.polls]
  | @setBack phase hphase hpending =>
    by_cases hpc : s.harness.pc = .evaluating
    · obtain rfl := phase_of_pc hpc hphase
      obtain ⟨hroom, hpolls⟩ := hi.here hpc
      refine hi.count rfl (fun n hn => ?_) ?_ ?_
      · simp [Event.doesNotPoll, Event.setsBack, Event.polls, Event.begins, Ne.symm hn]
      · simp only [List.countP_append, List.countP_singleton, Event.doesNotPoll, Event.setsBack,
          Event.begins, beq_self_eq_true, Bool.false_eq_true, if_false, if_true, Nat.add_zero]
        rw [room_succ]
        omega
      · simp only [List.countP_append, List.countP_singleton, Event.setsBack, Event.polls,
          beq_self_eq_true, Bool.false_eq_true, if_false, if_true, Nat.add_zero]
        omega
    · have hne := phase_ne hpc hphase
      refine hi.keep (fun n => ?_) fun hpc' => absurd hpc' hpc
      cases phase <;> simp_all [Event.doesNotPoll, Event.setsBack, Event.polls]

theorem Run.inv {delta : ℕ} {es : List (Event E)} {s : State E}
    (h : (system delta E).Run es s) : Inv delta es s := by
  refine h.induct ?_ fun es s a e t _ hi hs => inv_step hi (step_stepped hs)
  rintro s ⟨hinit, -⟩
  refine ⟨fun n => ⟨Nat.zero_le _, Nat.le_refl _⟩, fun hpc => ?_⟩
  simp [hinit, EvalBudget.State.initial] at hpc

/-- The evaluations of an input that poll are checks that the budget counts. -/
theorem polls_le {delta : ℕ} {es : List (Event E)} {s : State E} (h : (system delta E).Run es s)
    (n : ℕ) : es.countP (Event.polls n) ≤ 20000 := by
  refine Nat.le_trans ?_ (evalCheck_le (Run.seen h) n)
  rw [List.countP_filterMap]
  refine List.countP_mono_left fun e _ he => ?_
  cases e with
  | eval m phase outcome =>
    cases outcome <;> cases phase <;>
      simp_all [Event.polls, Event.seen, EvalBudget.Event.evalCheck]
  | harness | setBack | abandoned => simp [Event.polls] at he

theorem evaluates_eq (es : List (Event E)) (n : ℕ) : es.countP (Event.evaluates n) =
    es.countP (Event.polls n) + es.countP (Event.doesNotPoll n) := by
  induction es with
  | nil => rfl
  | cons e es ih =>
    cases e with
    | eval m phase outcome =>
      cases outcome <;> cases phase <;>
        simp [List.countP_cons, ih, Event.evaluates, Event.polls, Event.doesNotPoll] <;> omega
    | harness | setBack | abandoned => simp [ih, Event.evaluates, Event.polls, Event.doesNotPoll]

/-- While its budget lasts an input is evaluated at most 220000 times, and ten times more for each
expression that it begins, wherever the count stands when it begins: in whatever order R
polls elsewhere, runs finalizers, raises errors and handles them. -/
theorem evaluations_le {es : List (Event E)} {s : State E} (h : (system evalCountDelta E).Run es s)
    (n : ℕ) : es.countP (Event.evaluates n) ≤ 11 * 20000 + 10 * es.countP (Event.begins n) := by
  obtain ⟨hroom, hback⟩ := (Run.inv h).all n
  have hpolls := polls_le h n
  rw [evaluates_eq]
  rw [evalCountDelta] at hroom
  omega

/-- One expression, of which the eleventh evaluation polls. -/
def elevenEvaluations : List (Action Unit) := List.flatten
  [[.harness (.run (some [()]))], .replicate 5 (.harness .next), [.harness (.finish false)],
    [.harness .next], .replicate 11 (.eval false), [.setBack]]

theorem evaluations_le_eleven : ∃ es s, (system evalCountDelta Unit).Run es s ∧
    es.countP (Event.evaluates 1) = 11 ∧ es.countP (Event.evaluates 1) ≤ 11 * 20000 + 10 * 1 := by
  obtain ⟨es, s, h, hcounts⟩ : ∃ es s, (system evalCountDelta Unit).Run es s ∧
      (es.countP (Event.evaluates 1), es.countP (Event.begins 1)) = (11, 1) :=
    System.Run.of_schedule (S := system evalCountDelta Unit)
      (fun r => (r.1.countP (Event.evaluates 1), r.1.countP (Event.begins 1)))
      ⟨.initial, 0, 0⟩ elevenEvaluations ⟨rfl, rfl⟩ (by decide +kernel)
  have hbound := evaluations_le h 1
  simp only [Prod.mk.injEq] at hcounts
  rw [hcounts.2] at hbound
  exact ⟨es, s, h, hcounts.1, hbound⟩

end ROssFuzz.EvalPolling
