import Mathlib.Data.Int.Order.Basic
import ROssFuzz.TransitionRuns

/-!
# The execution budget of the eval target

`eval_run`, `eval_source`, `eval_compile` and the interrupt hook `eval_poll_budget`,
statement by statement. What R does inside `R_tryEvalSilent` is up to the scheduler: any
number of interrupt checks, then a result or an error; and an interrupt may leave
`eval_source` anywhere. An error the hook raises unwinds to `R_tryEvalSilent`.
-/

namespace ROssFuzz.EvalBudget
open TransitionRuns

/-- `FUZZ_EVAL_BUDGET`. -/
def fuzzEvalBudget : ℤ := 20000

/-- What a check comes to: nothing, one unit of the budget, or one of the two errors. -/
inductive Outcome | ignored | charged | spent | cpu deriving DecidableEq

def Outcome.raises : Outcome → Bool
  | .spent | .cpu => true
  | _ => false

/-- `eval_poll_budget`, with the budget it leaves; `expired` says that the clock is past
`FUZZ_EVAL_CPU_LIMIT`. -/
def evalPollBudget (expired : Bool) (budget : ℤ) : Outcome × ℤ :=
  if budget ≤ 0 then (.ignored, budget)
  else if budget - 1 = 0 then (.spent, budget - 1)
  else if expired then (.cpu, 0)
  else (.charged, budget - 1)

/-- The statements of an input. `parsing` holds what the parser and the tree limits will
make of it, `pause`, `compiling` and `restore` the local variable of `eval_compile`. -/
inductive Pc (E : Type)
  | idle | parsing (parsed : Option (List E)) | startBudget | loopTest
  | saveBudget | pause (budget : ℤ) | compiling (budget : ℤ) | restore (budget : ℤ)
  | evaluating | unwinding | errorTest (error : Bool) | stopBudget | reset
  deriving DecidableEq

structure State (E : Type) where
  budget : ℤ
  /-- The number of the input in progress, or of the last one. -/
  input : ℕ
  /-- The top-level expressions from the loop's index on. -/
  exprs : List E
  pc : Pc E
  deriving DecidableEq

inductive Phase | outside | parsing | compiling | evaluating | unwinding deriving DecidableEq

inductive Event (E : Type)
  | silent
  | started (n : ℕ)
  | check (n : ℕ) (phase : Phase) (outcome : Outcome)
  | evaluates (n : ℕ) (e : E)
  | returned (n : ℕ)
  deriving DecidableEq

/-- `next` is the next statement of the harness, the others are R's: a check, the end of
`R_tryEvalSilent`, an interrupt that jumps to the top level. -/
inductive Action (E : Type)
  | run (parsed : Option (List E))
  | next
  | check (expired : Bool)
  | finish (error : Bool)
  | jump

variable {E : Type}

/-- Where R runs, and may check for interrupts. -/
def Pc.phase : Pc E → Option Phase
  | .idle => some .outside
  | .parsing _ => some .parsing
  | .compiling _ => some .compiling
  | .evaluating => some .evaluating
  | .unwinding => some .unwinding
  | _ => none

/-- Where an error raised by the hook unwinds to. -/
def Pc.raised : Pc E → Pc E
  | .parsing _ => .reset
  | .compiling budget => .restore budget
  | .evaluating => .unwinding
  | pc => pc

def next (s : State E) : Option (Event E × State E) :=
  match s.pc with
  | .parsing none => some (.silent, { s with pc := .reset })
  | .parsing (some exprs) => some (.silent, { s with exprs := exprs, pc := .startBudget })
  | .startBudget => some (.silent, { s with budget := fuzzEvalBudget, pc := .loopTest })
  | .loopTest => match s.exprs with
      | [] => some (.silent, { s with pc := .stopBudget })
      | _ :: _ => some (.silent, { s with pc := .saveBudget })
  | .saveBudget => some (.silent, { s with pc := .pause s.budget })
  | .pause budget => some (.silent, { s with budget := 0, pc := .compiling budget })
  | .restore budget => match s.exprs with
      | [] => none
      | e :: _ => some (.evaluates s.input e, { s with budget := budget, pc := .evaluating })
  | .errorTest true => some (.silent, { s with pc := .stopBudget })
  | .errorTest false => some (.silent, { s with exprs := s.exprs.tail, pc := .loopTest })
  | .stopBudget => some (.silent, { s with budget := 0, pc := .reset })
  | .reset => some (.returned s.input, { s with budget := 0, pc := .idle })
  | _ => none

def step (s : State E) : Action E → Option (Event E × State E)
  | .run parsed => match s.pc with
      | .idle =>
        some (.started (s.input + 1), { s with input := s.input + 1, pc := .parsing parsed })
      | _ => none
  | .next => next s
  | .check expired => s.pc.phase.map fun phase =>
      let (outcome, budget) := evalPollBudget expired s.budget
      (.check s.input phase outcome, { s with
        budget := budget
        pc := if outcome.raises then s.pc.raised else s.pc })
  | .finish error => match s.pc with
      | .compiling budget => some (.silent, { s with pc := .restore budget })
      | .evaluating => some (.silent, { s with pc := .errorTest error })
      | .unwinding => some (.silent, { s with pc := .errorTest true })
      | _ => none
  | .jump => match s.pc with
      | .idle => none
      | _ => some (.silent, { s with pc := .reset })

def State.initial : State E where
  budget := 0
  input := 0
  exprs := []
  pc := .idle

def system (E : Type) : System (State E) (Action E) (Event E) where
  init s := s = .initial
  step := step

/-! ### What is left -/

/-- A check made while evaluating an expression of the input. -/
def Event.evalCheck (n : ℕ) : Event E → Bool
  | .check m .evaluating _ => m == n
  | _ => false

/-- An error of the hook's in the input. -/
def Event.raises (n : ℕ) : Event E → Bool
  | .check m _ outcome => m == n && outcome.raises
  | _ => false

/-- The budget the rest of the input has: in the variable, or in `eval_compile`'s hands. -/
def State.left (s : State E) : Option ℤ :=
  match s.pc with
  | .loopTest | .saveBudget | .evaluating | .errorTest false => some s.budget
  | .pause budget | .compiling budget | .restore budget => some budget
  | _ => none

/-- The budget is switched off. -/
def Pc.off : Pc E → Bool
  | .idle | .parsing _ | .startBudget | .compiling _ | .restore _ | .unwinding => true
  | _ => false

/-- No expression of the input has been looked at. -/
def Pc.fresh : Pc E → Bool
  | .parsing _ | .startBudget => true
  | _ => false

structure Inv (es : List (Event E)) (s : State E) : Prop where
  later : ∀ n, s.input < n → es.countP (Event.evalCheck n) = 0 ∧ es.countP (Event.raises n) = 0
  fresh : s.pc.fresh = true →
    es.countP (Event.evalCheck s.input) = 0 ∧ es.countP (Event.raises s.input) = 0
  off : s.pc.off = true → s.budget = 0
  left : ∀ b, s.left = some b → 0 < b ∧ es.countP (Event.raises s.input) = 0 ∧
    b = fuzzEvalBudget - es.countP (Event.evalCheck s.input)
  once : ∀ n, es.countP (Event.raises n) ≤ 1

/-- An event that is no check leaves the counts as they are. -/
private theorem Inv.keep {es : List (Event E)} {s s' : State E} (hi : Inv es s) {e : Event E}
    (hcheck : ∀ n, e.evalCheck n = false) (hraise : ∀ n, e.raises n = false)
    (hinput : s'.input = s.input) (hfresh : s'.pc.fresh = true → s.pc.fresh = true)
    (hoff : s'.pc.off = true → s'.budget = 0)
    (hleft : ∀ b, s'.left = some b → s.left = some b ∨
      s.pc.fresh = true ∧ b = fuzzEvalBudget) : Inv (es ++ [e]) s' := by
  have hc : ∀ n, (es ++ [e]).countP (Event.evalCheck n) = es.countP (Event.evalCheck n) := by
    intro n
    simp [List.countP_append, hcheck]
  have hr : ∀ n, (es ++ [e]).countP (Event.raises n) = es.countP (Event.raises n) := by
    intro n
    simp [List.countP_append, hraise]
  refine ⟨?_, ?_, hoff, ?_, ?_⟩
  · intro n hn
    rw [hc, hr]
    exact hi.later n (hinput ▸ hn)
  · intro hf
    rw [hc, hr, hinput]
    exact hi.fresh (hfresh hf)
  · intro b hb
    rw [hc, hr, hinput]
    rcases hleft b hb with hb | ⟨hf, rfl⟩
    · exact hi.left b hb
    · obtain ⟨hc0, hr0⟩ := hi.fresh hf
      rw [hc0, hr0]
      decide
  · intro n
    rw [hr]
    exact hi.once n

/-- A check while an expression is evaluated takes one unit, and an error the rest. -/
private theorem inv_evalCheck {es : List (Event E)} {s : State E} (hi : Inv es s)
    (hpc : s.pc = .evaluating) (expired : Bool) :
    Inv (es ++ [.check s.input .evaluating (evalPollBudget expired s.budget).1]) { s with
      budget := (evalPollBudget expired s.budget).2
      pc := if (evalPollBudget expired s.budget).1.raises then .unwinding else .evaluating } := by
  obtain ⟨hpos, hzero, hleft⟩ := hi.left s.budget (by simp [State.left, hpc])
  have hother : ∀ n, s.input < n → s.input ≠ n := fun n hn => by omega
  have hraises : ∀ n, (Event.check s.input .evaluating
      (evalPollBudget expired s.budget).1 : Event E).raises n =
        (s.input == n && (evalPollBudget expired s.budget).1.raises) := fun _ => rfl
  have hnot : ¬ s.budget ≤ 0 := by omega
  have hout : (evalPollBudget expired s.budget).1.raises = true ∧
        (evalPollBudget expired s.budget).2 = 0 ∨
      (evalPollBudget expired s.budget).1.raises = false ∧
        (evalPollBudget expired s.budget).2 = s.budget - 1 ∧ 0 < s.budget - 1 := by
    simp only [evalPollBudget, hnot, if_false]
    split
    · exact .inl ⟨rfl, ‹_›⟩
    · split
      · exact .inl ⟨rfl, rfl⟩
      · exact .inr ⟨rfl, rfl, by omega⟩
  generalize evalPollBudget expired s.budget = r at hout hraises ⊢
  refine ⟨?_, ?_, ?_, ?_, ?_⟩
  · intro n hn
    obtain ⟨hc, hr⟩ := hi.later n hn
    simp [List.countP_append, hc, hr, hraises, Event.evalCheck, hother n hn]
  · rcases hout with ⟨h, -⟩ | ⟨h, -⟩ <;> simp [h, Pc.fresh]
  · rcases hout with ⟨h, hb⟩ | ⟨h, -⟩
    · exact fun _ => hb
    · simp [h, Pc.off]
  · rcases hout with ⟨h, -⟩ | ⟨h, hb, hlt⟩
    · simp [h, State.left]
    · rintro b hb'
      obtain rfl : s.budget - 1 = b := by simpa [h, State.left, hb] using hb'
      refine ⟨hlt, by simp [List.countP_append, hraises, hzero, h], ?_⟩
      simp only [List.countP_append, hleft]
      simp [Event.evalCheck]
      omega
  · intro n
    by_cases hn : s.input = n
    · subst hn
      have hle : ([Event.check s.input .evaluating r.1].countP
          (Event.raises (E := E) s.input)) ≤ 1 := List.countP_le_length
      rw [List.countP_append, hzero]
      omega
    · have := hi.once n
      simpa [List.countP_append, hraises, hn] using this

private theorem inv_check {es : List (Event E)} {s : State E} (hi : Inv es s) {phase : Phase}
    (hp : s.pc.phase = some phase) (expired : Bool) :
    Inv (es ++ [.check s.input phase (evalPollBudget expired s.budget).1]) { s with
      budget := (evalPollBudget expired s.budget).2
      pc := if (evalPollBudget expired s.budget).1.raises then s.pc.raised else s.pc } := by
  by_cases hev : s.pc = .evaluating
  · obtain rfl : Phase.evaluating = phase := by simpa [Pc.phase, hev] using hp
    simpa [hev, Pc.raised] using inv_evalCheck hi hev expired
  · -- everywhere else the budget is off, and the hook returns at once
    have hoff : s.pc.off = true := by
      cases hpc : s.pc <;> simp_all [Pc.phase, Pc.off]
    have hphase : phase ≠ .evaluating := by
      rintro rfl
      cases hpc : s.pc <;> simp_all [Pc.phase]
    have hpoll : evalPollBudget expired s.budget = (.ignored, s.budget) := by
      simp [evalPollBudget, hi.off hoff]
    simp only [hpoll]
    refine hi.keep ?_ (fun n => by simp [Event.raises, Outcome.raises]) rfl id hi.off
      fun b hb => .inl hb
    intro n
    cases phase <;> simp_all [Event.evalCheck]

private theorem inv_next {es : List (Event E)} {s s' : State E} {e : Event E} (hi : Inv es s)
    (hs : next s = some (e, s')) : Inv (es ++ [e]) s' := by
  have hoff := hi.off
  cases hpc : s.pc with
  | parsing parsed =>
    cases parsed <;> simp only [next, hpc, Option.some.injEq, Prod.mk.injEq] at hs <;>
      obtain ⟨rfl, rfl⟩ := hs <;>
      exact hi.keep (fun _ => rfl) (fun _ => rfl) rfl (by simp [hpc, Pc.fresh])
        (by simp_all [Pc.off]) (by simp [State.left])
  | startBudget =>
    simp only [next, hpc, Option.some.injEq, Prod.mk.injEq] at hs
    obtain ⟨rfl, rfl⟩ := hs
    exact hi.keep (fun _ => rfl) (fun _ => rfl) rfl (by simp [Pc.fresh]) (by simp [Pc.off])
      (by simp [State.left, hpc, Pc.fresh, eq_comm])
  | loopTest =>
    cases hx : s.exprs <;> simp only [next, hpc, hx, Option.some.injEq, Prod.mk.injEq] at hs <;>
      obtain ⟨rfl, rfl⟩ := hs <;>
      exact hi.keep (fun _ => rfl) (fun _ => rfl) rfl (by simp [Pc.fresh]) (by simp [Pc.off])
        (by simp [State.left, hpc])
  | restore budget =>
    cases hx : s.exprs <;>
      simp only [next, hpc, hx, Option.some.injEq, Prod.mk.injEq, reduceCtorEq] at hs
    obtain ⟨rfl, rfl⟩ := hs
    exact hi.keep (fun _ => rfl) (fun _ => rfl) rfl (by simp [Pc.fresh]) (by simp [Pc.off])
      (by simp [State.left, hpc])
  | errorTest error =>
    cases error <;> simp only [next, hpc, Option.some.injEq, Prod.mk.injEq] at hs <;>
      obtain ⟨rfl, rfl⟩ := hs <;>
      exact hi.keep (fun _ => rfl) (fun _ => rfl) rfl (by simp [Pc.fresh]) (by simp [Pc.off])
        (by simp [State.left, hpc])
  | idle | compiling budget | evaluating | unwinding => simp [next, hpc] at hs
  | saveBudget | pause budget | stopBudget | reset =>
    simp only [next, hpc, Option.some.injEq, Prod.mk.injEq] at hs
    obtain ⟨rfl, rfl⟩ := hs
    exact hi.keep (fun _ => rfl) (fun _ => rfl) rfl (by simp [Pc.fresh]) (by simp [Pc.off])
      (by simp [State.left, hpc])

theorem inv_step {es : List (Event E)} {s s' : State E} {a : Action E} {e : Event E}
    (hi : Inv es s) (hs : step s a = some (e, s')) : Inv (es ++ [e]) s' := by
  cases a with
  | next => exact inv_next hi hs
  | check expired =>
    obtain ⟨phase, hp, rfl, rfl⟩ : ∃ phase, s.pc.phase = some phase ∧
        .check s.input phase (evalPollBudget expired s.budget).1 = e ∧ { s with
          budget := (evalPollBudget expired s.budget).2
          pc := if (evalPollBudget expired s.budget).1.raises then s.pc.raised else s.pc } = s' := by
      simpa [step] using hs
    exact inv_check hi hp expired
  | run parsed =>
    cases hpc : s.pc <;> simp only [step, hpc, Option.some.injEq, Prod.mk.injEq, reduceCtorEq] at hs
    obtain ⟨rfl, rfl⟩ := hs
    have hc : ∀ n, (es ++ [Event.started (s.input + 1)]).countP (Event.evalCheck n) =
        es.countP (Event.evalCheck n) := by simp [List.countP_append, Event.evalCheck]
    have hr : ∀ n, (es ++ [Event.started (s.input + 1)]).countP (Event.raises n) =
        es.countP (Event.raises n) := by simp [List.countP_append, Event.raises]
    refine ⟨fun n hn => ?_, fun _ => ?_, fun _ => hi.off (by simp [hpc, Pc.off]),
      by simp [State.left], fun n => by rw [hr]; exact hi.once n⟩
    · rw [hc, hr]
      exact hi.later n (by simp at hn; omega)
    · rw [hc, hr]
      exact hi.later _ (Nat.lt_succ_self _)
  | finish error =>
    have hoff := hi.off
    cases hpc : s.pc <;>
      simp only [step, hpc, Option.some.injEq, Prod.mk.injEq, reduceCtorEq] at hs <;>
      obtain ⟨rfl, rfl⟩ := hs <;>
      refine hi.keep (fun _ => rfl) (fun _ => rfl) rfl (by simp [Pc.fresh])
        (by simp_all [Pc.off]) ?_
    · simp [State.left, hpc]
    · cases error <;> simp [State.left, hpc]
    · simp [State.left]
  | jump =>
    cases hpc : s.pc <;>
      simp only [step, hpc, Option.some.injEq, Prod.mk.injEq, reduceCtorEq] at hs <;>
      obtain ⟨rfl, rfl⟩ := hs <;>
      exact hi.keep (fun _ => rfl) (fun _ => rfl) rfl (by simp [Pc.fresh]) (by simp [Pc.off])
        (by simp [State.left])

theorem Run.inv {es : List (Event E)} {s : State E} (h : (system E).Run es s) : Inv es s := by
  refine h.induct ?_ ?_
  · rintro s rfl
    refine ⟨?_, ?_, ?_, ?_, ?_⟩ <;> simp [State.initial, State.left]
  · exact fun es s a e t _ hi hs => inv_step hi hs

/-! ### Over whole runs -/

private theorem step_check {s s' : State E} {a : Action E} {n : ℕ} {phase : Phase}
    {outcome : Outcome} (hs : step s a = some (.check n phase outcome, s')) :
    ∃ expired, n = s.input ∧ s.pc.phase = some phase ∧
      outcome = (evalPollBudget expired s.budget).1 ∧
      s'.input = s.input ∧ s'.pc = if outcome.raises then s.pc.raised else s.pc := by
  cases a with
  | check expired =>
    obtain ⟨phase', hp, ⟨rfl, rfl, rfl⟩, rfl⟩ : ∃ phase', s.pc.phase = some phase' ∧
        (s.input = n ∧ phase' = phase ∧ (evalPollBudget expired s.budget).1 = outcome) ∧
          { s with
            budget := (evalPollBudget expired s.budget).2
            pc := if (evalPollBudget expired s.budget).1.raises then s.pc.raised
              else s.pc } = s' := by
      simpa [step] using hs
    exact ⟨expired, rfl, hp, rfl, rfl, rfl⟩
  | next =>
    simp only [step, next] at hs
    (repeat' split at hs) <;> simp at hs
  | run parsed | finish error | jump =>
    simp only [step] at hs
    (repeat' split at hs) <;> simp at hs

private theorem step_evaluates {s s' : State E} {a : Action E} {n : ℕ} {x : E}
    (hs : step s a = some (.evaluates n x, s')) :
    n = s.input ∧ ∃ budget, s.pc = .restore budget := by
  cases a with
  | next =>
    simp only [step, next] at hs
    (repeat' split at hs) <;> simp_all
  | check expired => simp [step] at hs
  | run parsed | finish error | jump =>
    simp only [step] at hs
    (repeat' split at hs) <;> simp at hs

/-- The input is on its way out. -/
def Pc.ending : Pc E → Bool
  | .idle | .unwinding | .errorTest true | .stopBudget | .reset => true
  | _ => false

/-- There is no way back into the loop. -/
private theorem step_ending {s s' : State E} {a : Action E} {e : Event E} {n : ℕ}
    (hg : n < s.input ∨ s.input = n ∧ s.pc.ending = true) (hs : step s a = some (e, s')) :
    n < s'.input ∨ s'.input = n ∧ s'.pc.ending = true := by
  rcases hg with hg | ⟨rfl, hend⟩
  · left
    cases a with
    | next =>
      simp only [step, next] at hs
      (repeat' split at hs) <;> simp at hs <;> obtain ⟨-, rfl⟩ := hs <;> exact hg
    | check expired =>
      obtain ⟨phase, -, -, rfl⟩ : ∃ phase, s.pc.phase = some phase ∧ _ = e ∧ _ = s' := by
        simpa [step] using hs
      exact hg
    | run parsed | finish error | jump =>
      simp only [step] at hs
      (repeat' split at hs) <;> simp at hs <;> obtain ⟨-, rfl⟩ := hs <;> simp <;> omega
  · cases hpc : s.pc with
    | errorTest error =>
      cases error <;> simp [hpc, Pc.ending] at hend
      cases a <;> simp [step, next, hpc, Pc.phase] at hs <;> obtain ⟨-, rfl⟩ := hs <;>
        exact .inr ⟨rfl, rfl⟩
    | idle | unwinding | stopBudget | reset =>
      cases a <;> simp [step, next, hpc, Pc.phase] at hs <;> obtain ⟨-, rfl⟩ := hs <;>
        simp [Pc.ending, Pc.raised]
    | _ => simp [hpc, Pc.ending] at hend

/-- Only a check made while evaluating finds the budget on. -/
private theorem Inv.check {es : List (Event E)} {s : State E} (hi : Inv es s) {phase : Phase}
    (hp : s.pc.phase = some phase) (expired : Bool) :
    phase ≠ .evaluating ∧ (evalPollBudget expired s.budget).1 = .ignored ∨
      s.pc = .evaluating ∧ phase = .evaluating ∧
        s.budget = fuzzEvalBudget - es.countP (Event.evalCheck s.input) ∧ 0 < s.budget := by
  by_cases hev : s.pc = .evaluating
  · obtain ⟨hpos, -, hleft⟩ := hi.left s.budget (by simp [State.left, hev])
    exact .inr ⟨hev, by simpa [Pc.phase, hev, eq_comm] using hp, hleft, hpos⟩
  · have hoff : s.pc.off = true := by
      cases hpc : s.pc <;> simp_all [Pc.phase, Pc.off]
    refine .inl ⟨?_, by simp [evalPollBudget, hi.off hoff]⟩
    rintro rfl
    cases hpc : s.pc <;> simp_all [Pc.phase]

/-- Checks made while compiling are neither charged nor cut the input off. Unless the
CPU limit does, the 20000th check made while evaluating does, and only that one, counted
through all expressions of the input and of no other. An input is cut off at most once,
by either limit, and none of its expressions is evaluated afterwards; and between inputs
the budget is off. -/
theorem eval_budget {es : List (Event E)} {s : State E} (h : (system E).Run es s) :
    (∀ n outcome, .check n .compiling outcome ∈ es → outcome = .ignored) ∧
    (∀ n, (∀ phase, .check n phase .cpu ∉ es) →
      ∀ pre outcome post, es = pre ++ .check n .evaluating outcome :: post →
        pre.countP (Event.evalCheck n) < 20000 ∧
        outcome = if pre.countP (Event.evalCheck n) + 1 = 20000 then .spent else .charged) ∧
    (∀ n, es.countP (Event.raises n) ≤ 1) ∧
    (∀ pre n x post, es = pre ++ x :: post → x.raises n = true →
      ∀ e, .evaluates n e ∉ post) ∧
    (s.pc = .idle → s.budget = 0) := by
  refine ⟨?_, ?_, (Run.inv h).once, ?_, fun hpc => (Run.inv h).off (by simp [hpc, Pc.off])⟩
  · intro n outcome hmem
    obtain ⟨pre, post, rfl⟩ := List.append_of_mem hmem
    obtain ⟨u, a, u', hpre, hstep, -⟩ := h.split
    obtain ⟨expired, -, hp, rfl, -⟩ := step_check hstep
    rcases (Run.inv hpre).check hp expired with ⟨-, hign⟩ | ⟨-, hne, -⟩
    · exact hign
    · simp at hne
  · rintro n hcpu pre outcome post rfl
    obtain ⟨u, a, u', hpre, hstep, -⟩ := h.split
    obtain ⟨expired, rfl, hp, rfl, -⟩ := step_check hstep
    rcases (Run.inv hpre).check hp expired with ⟨hne, -⟩ | ⟨-, -, hleft, hpos⟩
    · exact absurd rfl hne
    · have hlt : pre.countP (Event.evalCheck u.input) < 20000 := by
        simp only [fuzzEvalBudget] at hleft
        omega
      refine ⟨hlt, ?_⟩
      have hnot : ¬ u.budget ≤ 0 := by omega
      have hone : u.budget - 1 = 0 ↔ pre.countP (Event.evalCheck u.input) + 1 = 20000 := by
        simp only [fuzzEvalBudget] at hleft
        omega
      have hexp : (evalPollBudget expired u.budget).1 ≠ .cpu := by
        intro hc
        exact hcpu .evaluating (by simp [hc])
      simp only [evalPollBudget, hnot, if_false, hone] at hexp ⊢
      by_cases hlast : pre.countP (Event.evalCheck u.input) + 1 = 20000
      · simp [hlast]
      · simp only [hlast, if_false] at hexp ⊢
        cases expired with
        | true => simp at hexp
        | false => rfl
  · rintro pre n x post rfl hx e hmem
    obtain ⟨mid, rest, rfl⟩ := List.append_of_mem hmem
    rw [← List.cons_append, ← List.append_assoc] at h
    obtain ⟨u, a, u', hmid, hstep, -⟩ := h.split
    obtain ⟨rfl, budget, hpc⟩ := step_evaluates hstep
    have hend : u.input < u.input ∨ u.input = u.input ∧ u.pc.ending = true := by
      refine hmid.since (G := fun t => u.input < t.input ∨ t.input = u.input ∧ t.pc.ending = true)
        (fun x => x.raises u.input = true) (fun _ => False) ?_
        (fun es t a e t' _ hg hs => .inr (step_ending hg hs)) hx (by simp)
      intro es t a y t' hr hs hy
      cases y with
      | check n phase outcome =>
        obtain ⟨hn, ho⟩ : n = u.input ∧ outcome.raises = true := by simpa [Event.raises] using hy
        obtain ⟨expired, hin, hp, rfl, hin', hpc'⟩ := step_check hs
        rcases (Run.inv hr).check hp expired with ⟨-, hign⟩ | ⟨hev, -⟩
        · simp [hign, Outcome.raises] at ho
        · exact .inr ⟨by omega, by simp [hpc', ho, hev, Pc.raised, Pc.ending]⟩
      | _ => simp [Event.raises] at hy
    simp [hpc, Pc.ending] at hend

/-- Three expressions, with checks while they are compiled and evaluated. The second runs out of CPU
time in its second check. -/
def threeExpressions : List (Action ℕ) := List.flatten
  [[.run (some [10, 11, 12])], .replicate 5 .next, [.check false, .finish false, .next],
    [.check false, .check false, .finish false], .replicate 4 .next, [.finish false, .next],
    [.check false, .check true, .check false, .finish false], .replicate 3 .next]

def cutBefore : List (Event ℕ) := List.flatten
  [[.started 1], .replicate 5 .silent, [.check 1 .compiling .ignored, .silent, .evaluates 1 10],
    .replicate 2 (.check 1 .evaluating .charged), .replicate 6 .silent, [.evaluates 1 11],
    [.check 1 .evaluating .charged]]

def cutAfter : List (Event ℕ) :=
  [.check 1 .unwinding .ignored] ++ .replicate 3 .silent ++ [.returned 1]

theorem eval_budget_cut : ∃ s,
    (system ℕ).Run (cutBefore ++ .check 1 .evaluating .cpu :: cutAfter) s ∧ s.budget = 0 ∧
    ∀ e, .evaluates 1 e ∉ cutAfter := by
  obtain ⟨s, h, hpc⟩ : ∃ s,
      (system ℕ).Run (cutBefore ++ .check 1 .evaluating .cpu :: cutAfter) s ∧ s.pc = .idle :=
    System.Run.of_exec (S := system ℕ) (fun s => s.pc) .initial threeExpressions rfl
      (by decide +kernel)
  obtain ⟨-, -, -, hcut, hidle⟩ := eval_budget h
  exact ⟨s, h, hidle hpc, hcut _ 1 _ _ rfl rfl⟩

end ROssFuzz.EvalBudget
