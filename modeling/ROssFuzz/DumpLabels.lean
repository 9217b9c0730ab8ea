import ROssFuzz.DumpSoundness
import ROssFuzz.SlotLabels

/-!
# What a dump names

The handoff and the alarm together with the labels: `fuzz_label_calls` fills the table in a
job that is no input's, and every evaluation by `fuzz_eval_silent` or `fuzz_do_eval` begins
with a `fuzz_label_enter`, as do the calls of it that are made directly. The label is reset
by `fuzz_do_target_run` alone, at both ends of an input, so what a warm-up has entered stays
until the first statement of the first input.
-/

namespace ROssFuzz.DumpLabels
open RThreadHandoff TransitionRuns LabelText SlotLabels CheckedOperations CStrings
open TimeoutAlarm (Alarm Config DumpPc TickPc alarmStep alarmStep_eq dumpStep liveStep mainEffect
  mainEffect_eq mainStep mainStep_stage rEffect rEvent rStep rStep_calls)

/-- The process, with `fuzz_labels` up to `fuzz_n_labels`. -/
structure State (J C : Type) where
  base : TimeoutAlarm.State J
  table : List (Label C)

inductive Event (J C : Type)
  | base (e : TimeoutAlarm.Event J)
  | entered (call : Sexp C)
  | labelled
  deriving DecidableEq

/-- The scheduler's choices. What `malloc` answers and what R deparses is decided when the
calls are labelled. -/
inductive Action (J C : Type)
  | base (a : TimeoutAlarm.Action J)
  | enter (call : Sexp C)
  | labelCalls (malloc : Malloc) (deparse : ℕ → C → Option (List CString))
      (calls : List (Sexp C))

variable {J C : Type}

/-- The label is set by a call that is entered, and by nothing else in a job. -/
def step [DecidableEq C] (cfg : Config) (s : State J C) :
    Action J C → Option (Event J C × State J C)
  | .base (.label _) => none
  | .base a => (TimeoutAlarm.step cfg s.base a).map fun p => (.base p.1, { s with base := p.2 })
  | .enter call => (TimeoutAlarm.step cfg s.base (.label (fuzzLabelEnter s.table call))).map
      fun p => (.entered call, { s with base := p.2 })
  | .labelCalls malloc deparse calls =>
      if s.base.exited = false ∧ s.base.dump = none ∧ s.base.handoff.r = .runJob ∧
          s.base.unit = none then
        match fuzzLabelCalls malloc deparse calls s.table with
        | .ok table => some (.labelled, { s with table })
        | .error _ => none
      else none

def system (J C : Type) [DecidableEq C] (cfg : Config) :
    System (State J C) (Action J C) (Event J C) where
  init s := (∃ now, s.base = .initial now) ∧ s.table = []
  step := step cfg

/-- The call most recently entered, as the trace goes on: a new call of the main thread's
begins with none. -/
def noteEntered (last : Option (Sexp C)) : Event J C → Option (Sexp C)
  | .base (.called _ _ _) => none
  | .entered call => some call
  | _ => last

def lastEntered (es : List (Event J C)) : Option (Sexp C) := es.foldl noteEntered none

@[simp] theorem lastEntered_snoc (es : List (Event J C)) (e : Event J C) :
    lastEntered (es ++ [e]) = noteEntered (lastEntered es) e := by
  simp [lastEntered]

/-- `fuzz_do_target_run` is the job's `fn`, and is at one of its statements. -/
def Executing (s : State J C) : Prop :=
  s.base.unit.isSome = true ∧
    (s.base.handoff.r = .labelReset ∨ s.base.handoff.r = .runJob ∨ s.base.handoff.r = .labelClear)

/-- What is printed is the text of the call entered last, if that is registered. -/
def Names (table : List (Label C)) (last : Option (Sexp C)) (label : Option ℕ) : Prop :=
  (∀ i, label = some i → ∃ e, table[i]? = some e ∧ last = some (.call e.call)) ∧
    (label = none → ∀ e ∈ table, last ≠ some (.call e.call))

/-- A dump signal is delivered. -/
def Action.delivers : Action J C → Bool
  | .base .deliverDump => true
  | _ => false

/-- A dump signal that is delivered to an input before the first statement of
`fuzz_do_target_run` finds no label. -/
def Clean (s : State J C) (a : Action J C) : Prop :=
  a.delivers = true → s.base.unit.isSome = true → s.base.handoff.r = .labelReset →
    s.base.alarm.label = none

instance (s : State J C) (a : Action J C) : Decidable (Clean s a) :=
  inferInstanceAs (Decidable (_ → _ → _ → _))

section Steps
variable {cfg : Config} [DecidableEq C]

@[simp] theorem mainEffect_label (pc : MainPc) (now : Timespec) (a : Alarm) :
    (mainEffect cfg pc now a).label = a.label := by
  rw [mainEffect_eq]

@[simp] theorem alarmStep_label (killFails letPass : Bool) (s : TimeoutAlarm.State J)
    (pc : TickPc) : (alarmStep cfg killFails letPass s pc).2.alarm.label = s.alarm.label := by
  rw [alarmStep_eq]

@[simp] theorem alarmStep_dump (killFails letPass : Bool) (s : TimeoutAlarm.State J)
    (pc : TickPc) : (alarmStep cfg killFails letPass s pc).2.dump = s.dump := by
  rw [alarmStep_eq]

/-- In the middle of a job only a call that is entered changes the label, and only a signal
that is delivered starts the handler. -/
theorem step_frame {s s' : TimeoutAlarm.State J} {a : TimeoutAlarm.Action J}
    {e : TimeoutAlarm.Event J} (hs : TimeoutAlarm.step cfg s a = some (e, s')) :
    ((∀ l, a ≠ .label l) → s.handoff.r = .runJob → s'.alarm.label = s.alarm.label) ∧
      (s.dump = none → s'.dump.isSome = true → a = .deliverDump) := by
  rw [TimeoutAlarm.step, Option.ite_none_left_eq_some] at hs
  replace hs := hs.2
  cases a <;> simp only [liveStep, Option.ite_none_right_eq_some, Option.ite_none_left_eq_some,
    Option.map_eq_some_iff, Option.some.injEq, Prod.mk.injEq, mainStep, rStep] at hs
  case main =>
    obtain ⟨-, h, -, -, rfl⟩ := hs
    exact ⟨fun _ _ => by simp, fun hd => by simp [hd]⟩
  case rThread =>
    obtain ⟨hd, h, -, -, rfl⟩ := hs
    exact ⟨fun _ hr => by simp [rEffect, hr], fun hd => by simp [hd]⟩
  case alarm killFails letPass =>
    obtain ⟨-, pc, -, hpc⟩ := hs
    obtain rfl : _ = s' := congrArg Prod.snd hpc
    exact ⟨fun _ _ => by simp, fun hd => by simp [hd]⟩
  case dump =>
    obtain ⟨pc, hd, hpc⟩ := hs
    obtain rfl : _ = s' := congrArg Prod.snd hpc
    exact ⟨fun _ _ => by cases pc <;> rfl, fun hd' => by simp [hd] at hd'⟩
  case label => exact ⟨fun hl => absurd rfl (hl _), fun hd => by simp [← hs.2.2, hd]⟩
  case deliverDump => exact ⟨fun _ _ => by simp [← hs.2.2], fun _ _ => rfl⟩
  case fork => exact ⟨fun _ _ => by simp [← hs.2.2], fun hd => by simp [← hs.2.2]⟩
  case advance | call | testOneInput | tick =>
    exact ⟨fun _ _ => by simp [← hs.2.2], fun hd => by simp [← hs.2.2, hd]⟩
  case wakeMain | wakeRThread =>
    obtain ⟨h, -, -, rfl⟩ := hs
    exact ⟨fun _ _ => rfl, fun hd => by simp [hd]⟩

theorem deliverDump_eq {s s' : TimeoutAlarm.State J} {e : TimeoutAlarm.Event J}
    (hs : TimeoutAlarm.step cfg s .deliverDump = some (e, s')) :
    s.exited = false ∧ e = .silent .dump ∧
      s' = { s with pending := s.pending - 1, dump := some .loadRequested } := by
  rw [TimeoutAlarm.step, Option.ite_none_left_eq_some] at hs
  obtain ⟨-, hlive⟩ := Option.ite_none_right_eq_some.mp hs.2
  obtain ⟨rfl, rfl⟩ := Prod.mk.inj (Option.some.inj hlive)
  exact ⟨by simpa using hs.1, rfl, rfl⟩

/-- A step is one of the process without labels, or fills the table. -/
theorem step_cases {s t : State J C} {a : Action J C} {e : Event J C}
    (hs : step cfg s a = some (e, t)) :
    (∃ a' e' b, a = .base a' ∧ (∀ l, a' ≠ .label l) ∧
      TimeoutAlarm.step cfg s.base a' = some (e', b) ∧ e = .base e' ∧ t = { s with base := b }) ∨
    (∃ call b, e = .entered call ∧ t = { s with base := b } ∧
      TimeoutAlarm.step cfg s.base (.label (fuzzLabelEnter s.table call)) =
        some (.silent .rThread, b) ∧
      s.base.dump = none ∧ s.base.handoff.r = .runJob ∧ b = { s.base with
        alarm := { s.base.alarm with label := fuzzLabelEnter s.table call } }) ∨
    (∃ table, e = .labelled ∧ t = { s with table } ∧ s.base.dump = none ∧
      s.base.handoff.r = .runJob ∧ s.base.unit = none) := by
  cases a with
  | enter call =>
    obtain ⟨⟨e', b⟩, hb, heq⟩ := Option.map_eq_some_iff.mp hs
    obtain ⟨rfl, rfl⟩ : .entered call = e ∧ { s with base := b } = t := by simpa using heq
    have hlabel := hb
    rw [TimeoutAlarm.step, Option.ite_none_left_eq_some] at hlabel
    obtain ⟨⟨hd, hr⟩, hlabel⟩ := Option.ite_none_right_eq_some.mp hlabel.2
    obtain ⟨rfl, rfl⟩ := Prod.mk.inj (Option.some.inj hlabel)
    exact .inr (.inl ⟨call, _, rfl, rfl, hb, hd, hr, rfl⟩)
  | labelCalls malloc deparse calls =>
    obtain ⟨⟨-, hd, hr, hu⟩, hs⟩ := Option.ite_none_right_eq_some.mp hs
    cases htable : fuzzLabelCalls malloc deparse calls s.table with
    | error stop => simp [htable] at hs
    | ok table =>
      obtain ⟨rfl, rfl⟩ : .labelled = e ∧ { s with table } = t := by simpa [htable] using hs
      exact .inr (.inr ⟨table, rfl, rfl, hd, hr, hu⟩)
  | base a =>
    have hl : ∀ l, a ≠ .label l := by
      rintro l rfl
      simp [step] at hs
    have hmap : (TimeoutAlarm.step cfg s.base a).map
        (fun p => (Event.base p.1, { s with base := p.2 })) = some (e, t) := by
      cases a <;> first | exact hs | exact absurd rfl (hl _)
    obtain ⟨⟨e', b⟩, hb, heq⟩ := Option.map_eq_some_iff.mp hmap
    obtain ⟨rfl, rfl⟩ : .base e' = e ∧ { s with base := b } = t := by simpa using heq
    exact .inl ⟨a, e', b, rfl, hl, hb, rfl, rfl⟩

/-- What shows of an event in the process without labels. -/
def Event.toBase : Event J C → Option (TimeoutAlarm.Event J)
  | .base e => some e
  | .entered _ => some (.silent .rThread)
  | .labelled => none

theorem Run.toBase {es : List (Event J C)} {s : State J C} (h : (system J C cfg).Run es s) :
    (TimeoutAlarm.system J cfg).Run (es.filterMap Event.toBase) s.base := by
  refine h.project State.base Event.toBase ?_ ?_
  · exact fun s h₀ => h₀.1
  intro s a e t hs
  rcases step_cases hs with ⟨a', e', b, -, -, hb, rfl, rfl⟩ | ⟨call, b, rfl, rfl, hb, -⟩ |
    ⟨table, rfl, rfl, -⟩
  · exact .inl ⟨a', e', rfl, hb⟩
  · exact .inl ⟨_, _, rfl, hb⟩
  · exact .inr ⟨rfl, rfl⟩

/-- What a step can do. -/
inductive Moves (cfg : Config) (s : State J C) : Event J C → State J C → Prop
  | base {e : TimeoutAlarm.Event J} {b : TimeoutAlarm.State J}
      (hb : TimeoutAlarm.Moves cfg s.base e b)
      (hl : s.base.handoff.r = .runJob → b.alarm.label = s.base.alarm.label) :
      Moves cfg s (.base e) { s with base := b }
  | enter (call : Sexp C) (hd : s.base.dump = none) (hr : s.base.handoff.r = .runJob) :
      Moves cfg s (.entered call) { s with base := { s.base with
        alarm := { s.base.alarm with label := fuzzLabelEnter s.table call } } }
  | labelled (table : List (Label C)) (hd : s.base.dump = none)
      (hr : s.base.handoff.r = .runJob) (hu : s.base.unit = none) :
      Moves cfg s .labelled { s with table }

theorem step_moves {s t : State J C} {a : Action J C} {e : Event J C}
    (hs : step cfg s a = some (e, t)) : Moves cfg s e t := by
  rcases step_cases hs with ⟨a', e', b, rfl, hl, hb, rfl, rfl⟩ |
    ⟨call, b, rfl, rfl, -, hd, hr, rfl⟩ | ⟨table, rfl, rfl, hd, hr, hu⟩
  · exact .base (TimeoutAlarm.step_moves hb).2 ((step_frame hb).1 hl)
  · exact .enter call hd hr
  · exact .labelled table hd hr hu

end Steps

/-! ### The label and the trace -/

section Label
variable {cfg : Config} [DecidableEq C]

/-- What the trace says about the label in an input. -/
structure Inv (es : List (Event J C)) (s : State J C) : Prop where
  fresh : s.base.handoff.stage < 3 ∨ s.base.handoff.r = .labelReset → lastEntered es = none
  current : s.base.unit.isSome = true →
    s.base.handoff.r = .runJob ∨ s.base.handoff.r = .labelClear →
      s.base.alarm.label = (lastEntered es).bind (fuzzLabelEnter s.table)
  loaded : ∀ k l, s.base.dump = some (.print k l) → l = s.base.alarm.label

/-- The R thread is at a statement of the job's `fn`. -/
def inJob : RPc → Bool
  | .labelReset | .runJob | .labelClear => true
  | _ => false

/-- A step that is none of the R thread's in a job, and enters no call. -/
private theorem Inv.keep {es : List (Event J C)} {s : State J C} {e : TimeoutAlarm.Event J}
    {b : TimeoutAlarm.State J} (hi : Inv es s)
    (hlast : noteEntered (lastEntered es) (.base e) = lastEntered es)
    (hstage : s.base.handoff.stage ≤ b.handoff.stage)
    (hr : inJob b.handoff.r = true → b.handoff.r = s.base.handoff.r)
    (hlabel : b.alarm.label = s.base.alarm.label)
    (hunit : b.unit.isSome = true → s.base.unit.isSome = true)
    (hloaded : ∀ k l, b.dump = some (.print k l) → l = s.base.alarm.label) :
    Inv (es ++ [.base e]) { s with base := b } := by
  refine ⟨?_, ?_, ?_⟩
  · simp only [lastEntered_snoc, hlast]
    rintro (hlt | hreset)
    · exact hi.fresh (.inl (by omega))
    · exact hi.fresh (.inr ((hr (by simp [hreset, inJob])).symm.trans hreset))
  · simp only [lastEntered_snoc, hlast, hlabel]
    intro hu hrun
    have hsame := hr (by rcases hrun with hrun | hrun <;> simp [hrun, inJob])
    exact hi.current (hunit hu) (hsame ▸ hrun)
  · simpa only [hlabel] using hloaded

/-- Only its own statements bring the R thread into a job or on in it. -/
theorem mainStep_inJob {h h' : Handoff J} (hs : h.mainStep = some h')
    (hr : inJob h'.r = true) : h'.r = h.r := by
  cases Handoff.mainStep_moves hs with
  | create => simp [inJob] at hr
  | postBroadcast =>
    by_cases hw : h.r = .condWait <;> simp_all [inJob]
  | _ => rfl

theorem rStep_inJob {h h' : Handoff J} (hs : h.rStep = some h') :
    (h'.r = .labelReset → h.r = .readJob) ∧ (h'.r = .runJob → h.r = .labelReset) ∧
      (h'.r = .labelClear → h.r = .runJob) := by
  cases Handoff.rStep_moves hs with
  | _ hr => simp [hr]

theorem stage_of_fetched {h : Handoff J} (hi : h.Inv) (hr : h.r.fetched = true) :
    h.stage = h.r.stage := by
  obtain ⟨hmw, hjob, -⟩ := hi.fetched hr
  simp [Handoff.stage, MainPc.posting_of_awaiting hmw, hjob]

omit [DecidableEq C] in
/-- Only a call that comes from outside is a new one. -/
theorem noteEntered_base (last : Option (Sexp C)) {e : TimeoutAlarm.Event J}
    (he : e.actor ≠ .clock) : noteEntered last (.base e) = last := by
  cases e <;> first | rfl | exact absurd rfl he

/-- The R thread's own statements: at the reset nothing has been entered. -/
private theorem inv_rThread {es : List (Event J C)} {s : State J C} {h : Handoff J}
    (hh : s.base.handoff.Inv) (hi : Inv es s) (hd : s.base.dump = none)
    (hs : s.base.handoff.rStep = some h) (hstage : s.base.handoff.stage ≤ h.stage) :
    Inv (es ++ [.base (rEvent s.base.handoff s.base.now)]) { s with base := { s.base with
      handoff := h
      alarm := rEffect s.base.unit.isSome s.base.handoff.r s.base.now s.base.alarm } } := by
  obtain ⟨hreset, hrun, hclear⟩ := rStep_inJob hs
  have hlast : noteEntered (lastEntered es) (.base (rEvent s.base.handoff s.base.now)) =
      lastEntered es := noteEntered_base _ (by simp)
  refine ⟨?_, ?_, by simp [hd]⟩
  · simp only [lastEntered_snoc, hlast]
    rintro (hlt | hr)
    · exact hi.fresh (.inl (by omega))
    · have hread := hreset hr
      have htwo := stage_of_fetched hh (by simp [hread, RPc.fetched])
      exact hi.fresh (.inl (by simp [htwo, hread, RPc.stage]))
  · simp only [lastEntered_snoc, hlast]
    rintro hu (hr | hr)
    · have hfirst := hrun hr
      simp [hi.fresh (.inr hfirst), rEffect, hfirst, hu]
    · have hin := hclear hr
      simpa [rEffect, hin] using hi.current hu (.inl hin)

theorem inv_moves {es : List (Event J C)} {s t : State J C} {e : Event J C}
    (hb : TimeoutAlarm.Inv s.base) (hi : Inv es s) (hs : Moves cfg s e t) : Inv (es ++ [e]) t := by
  cases hs with
  | enter call hd hr =>
    have hthree := stage_of_fetched hb.handoff (by simp [hr, RPc.fetched])
    exact ⟨by simp [hthree, hr, RPc.stage], by simp [noteEntered], by simp [hd]⟩
  | labelled table hd hr hu =>
    exact ⟨by simpa [noteEntered] using hi.fresh, by simp [hu], by simp [hd]⟩
  | @base e b hmoves hl =>
    have hstage : b.handoff.calls = s.base.handoff.calls →
        s.base.handoff.stage ≤ b.handoff.stage := by
      intro hcalls
      rcases TimeoutAlarm.moves_milestone hb.handoff hmoves with ⟨-, hm⟩ | ⟨-, hm⟩ <;>
        simp only [Handoff.milestone] at hm <;> omega
    cases hmoves with
    | rThread h hd hh => exact inv_rThread hb.handoff hi hd hh (hstage (rStep_calls hh).1)
    | call j hm ht | testOneInput j hm ht =>
      have hidle := (hb.handoff.quiet (by simp [hm, MainPc.quiet])).2
      refine ⟨by simp [noteEntered], ?_, hi.loaded⟩
      rintro - (hr | hr) <;> simp_all [Handoff.enter, RPc.idle]
    | main h ht hh =>
      refine hi.keep (noteEntered_base _ (by simp)) (mainStep_stage hb.handoff hh).ge
        (mainStep_inJob hh) (by simp) ?_ hi.loaded
      simp only
      split <;> simp
    | label l hd hr =>
      exact hi.keep rfl le_rfl (fun _ => rfl) (hl hr) id hi.loaded
    | alarm killFails letPass pc hlen ht =>
      exact hi.keep (noteEntered_base _ (by simp)) (by simp) (by simp) (by simp) (by simp)
        (by simpa using hi.loaded)
    | dump pc hd =>
      cases pc <;> exact hi.keep rfl le_rfl (fun _ => rfl) rfl id (by simp [dumpStep])
    | wakeMain h hh =>
      obtain ⟨hm, rfl⟩ := Handoff.wakeMain_eq hh
      exact hi.keep rfl (hstage rfl) (fun _ => rfl) rfl id hi.loaded
    | wakeRThread h hh =>
      obtain ⟨hr, rfl⟩ := Handoff.wakeR_eq hh
      exact hi.keep rfl (hstage rfl) (by simp [inJob]) rfl id hi.loaded
    | fork hm ht =>
      refine hi.keep rfl (hstage ?_) (by simp [Handoff.child, inJob]) rfl id (by simp)
      by_cases ha : s.base.handoff.atforkRegistered = true <;>
        simp [Handoff.child, Handoff.forget, ha]
    | deliverDump hd hp hr =>
      exact hi.keep rfl le_rfl (fun _ => rfl) rfl id (by simp)
    | advance t h | tick ht hw =>
      exact hi.keep rfl le_rfl (fun _ => rfl) rfl id hi.loaded

theorem Run.labels {es : List (Event J C)} {s : State J C} (h : (system J C cfg).Run es s) :
    Inv es s := by
  refine h.induct ?_ ?_
  · rintro ⟨base, table⟩ ⟨⟨now, rfl⟩, rfl⟩
    refine ⟨fun _ => rfl, ?_, ?_⟩ <;> simp [TimeoutAlarm.State.initial]
  · intro es s a e t hr hi hs
    exact inv_moves (TimeoutAlarm.Run.inv (Run.toBase hr)) hi (step_moves hs)

omit [DecidableEq C] in
/-- While a handler is running nothing brings the R thread to the entry of a job. -/
private theorem moves_entry {s b : TimeoutAlarm.State J} {e : TimeoutAlarm.Event J}
    (hb : TimeoutAlarm.Moves cfg s e b) (hi : s.handoff.Inv) (hd : s.dump.isSome = true)
    (hu : b.unit.isSome = true) (hr : b.handoff.r = .labelReset) :
    s.unit.isSome = true ∧ s.handoff.r = .labelReset ∧ b.alarm.label = s.alarm.label := by
  cases hb with
  | rThread h hd' hh => simp [hd'] at hd
  | label l hd' hr' => simp [hd'] at hd
  | call j hm ht | testOneInput j hm ht =>
    have hidle := (hi.quiet (by simp [hm, MainPc.quiet])).2
    simp_all [Handoff.enter, RPc.idle]
  | main h ht hh =>
    have hreset : h.r = .labelReset := hr
    have hsame : h.r = s.handoff.r := mainStep_inJob hh (by simp [hreset, inJob])
    refine ⟨?_, hsame ▸ hr, by simp⟩
    by_contra hnone
    simp_all
  | alarm killFails letPass pc hl ht => simp_all
  | dump pc hd' => cases pc <;> exact ⟨hu, hr, rfl⟩
  | wakeMain h hh =>
    obtain ⟨hm, rfl⟩ := Handoff.wakeMain_eq hh
    exact ⟨hu, hr, rfl⟩
  | wakeRThread h hh =>
    obtain ⟨hr', rfl⟩ := Handoff.wakeR_eq hh
    simp at hr
  | fork hm ht => simp [Handoff.child] at hr
  | deliverDump hd' hp hr' => simp [hd'] at hd
  | advance | tick => exact ⟨hu, hr, rfl⟩

/-- A handler that has interrupted an input at the entry of its job finds no label. -/
theorem Run.clean {es : List (Event J C)} {s : State J C}
    (h : ((system J C cfg).restrict Clean).Run es s) (hd : s.base.dump.isSome = true)
    (hu : s.base.unit.isSome = true) (hr : s.base.handoff.r = .labelReset) :
    s.base.alarm.label = none := by
  refine h.induct (I := fun _ s => s.base.dump.isSome = true → s.base.unit.isSome = true →
    s.base.handoff.r = .labelReset → s.base.alarm.label = none) ?_ ?_ hd hu hr
  · rintro ⟨base, table⟩ ⟨⟨now, rfl⟩, rfl⟩
    simp [TimeoutAlarm.State.initial]
  · intro es s a e t hrun hi hs hd hu hr
    obtain ⟨hc, hstep⟩ := System.restrict_step.mp hs
    have hinv := (TimeoutAlarm.Run.inv (Run.toBase hrun.of_restrict)).handoff
    rcases step_cases hstep with ⟨a', e', b, rfl, -, hb, rfl, rfl⟩ |
      ⟨call, b, rfl, rfl, -, hd', -, rfl⟩ | ⟨table, rfl, rfl, hd', -⟩
    · cases hdump : s.base.dump with
      | none =>
        obtain rfl := (step_frame hb).2 hdump hd
        obtain ⟨-, -, rfl⟩ := deliverDump_eq hb
        exact hc rfl hu hr
      | some pc =>
        have hmoves := (TimeoutAlarm.step_moves hb).2
        obtain ⟨hu', hr', hlabel⟩ := moves_entry hmoves hinv (by simp [hdump]) hu hr
        exact hlabel.trans (hi (by simp [hdump]) hu' hr')
    · simp [hd'] at hd
    · simp [hd'] at hd

end Label

/-! ### What is printed -/

section Printed
variable {cfg : Config} [DecidableEq C]

theorem names_of_enter (table : List (Label C)) (last : Option (Sexp C)) :
    Names table last (last.bind (fuzzLabelEnter table)) := by
  cases last with
  | none => exact ⟨by simp, by simp⟩
  | some s =>
    rw [Option.bind_some, fuzzLabelEnter]
    constructor
    · intro i hi
      obtain ⟨hlt, hs, -⟩ := List.findIdx?_eq_some_iff_getElem.mp hi
      have hcall : Sexp.call table[i].call = s := by simpa using hs
      exact ⟨table[i], List.getElem?_eq_getElem hlt, by rw [hcall]⟩
    · intro hnone e he heq
      have hne := List.findIdx?_eq_none_iff.mp hnone e he
      simp [Option.some.inj heq] at hne

/-- The statement of the handler that prints. -/
private theorem step_printed {s t : State J C} {a : Action J C} {d k : ℕ} {l : Option ℕ}
    (hs : step cfg s a = some (.base (.dumpPrinted d k l), t)) :
    s.base.dump = some (.print k l) := by
  rcases step_cases hs with ⟨a', e, b, -, -, hb, he, -⟩ | ⟨call, b, he, -, -⟩ | ⟨table, he, -⟩
  · obtain rfl : .dumpPrinted d k l = e := by simpa using he
    generalize hp : TimeoutAlarm.Event.dumpPrinted d k l = e at hb
    have hactor : e.actor = .dump := hp ▸ rfl
    cases (TimeoutAlarm.step_moves hb).2 with
    | dump pc hd => cases pc <;> simp_all [dumpStep]
    | main | rThread | alarm => simp at hactor
    | _ => cases hp
  · cases he
  · cases he

/-- A dump names a call of its own input: in every run in which no dump signal is delivered
to an input before the first statement of `fuzz_do_target_run` while a label is still set,
what is printed in an input is the text of the call entered last in it, and nothing if no
call has been entered or if that one is not registered. -/
theorem dump_names_own_call {es : List (Event J C)} {s t : State J C} {a : Action J C} {d k : ℕ}
    {l : Option ℕ} (h : ((system J C cfg).restrict Clean).Run es s)
    (hs : step cfg s a = some (.base (.dumpPrinted d k l), t)) (hin : Executing s) :
    Names s.table (lastEntered es) l := by
  have hi := Run.labels h.of_restrict
  have hd := step_printed hs
  obtain rfl := hi.loaded k l hd
  obtain ⟨hu, hr | hr⟩ := hin
  · have hnone := Run.clean h (by simp [hd]) hu hr
    rw [hnone, hi.fresh (.inr hr)]
    exact ⟨by simp, by simp⟩
  · rw [hi.current hu hr]
    exact names_of_enter _ _

private theorem step_dump (s : State J C) (pc : DumpPc) (hx : s.base.exited = false)
    (hd : s.base.dump = some pc) : (system J C cfg).step s (.base .dump) =
      some (.base (dumpStep s.base pc).1, { s with base := (dumpStep s.base pc).2 }) := by
  simp [system, step, TimeoutAlarm.step, liveStep, hx, hd]

/-- A handler that has just been started reads the label and prints it. -/
private theorem run_to_print {es : List (Event J C)} {s : State J C}
    (h : (system J C cfg).Run es s) (hx : s.base.exited = false)
    (hd : s.base.dump = some .loadRequested) :
    ∃ u v d k, (system J C cfg).Run (es ++ [.base (.silent .dump), .base (.silent .dump)]) u ∧
      u.base.handoff = s.base.handoff ∧ u.base.unit = s.base.unit ∧
      step cfg u (.base .dump) = some (.base (.dumpPrinted d k s.base.alarm.label), v) := by
  have h₁ := h.snoc (step_dump s .loadRequested hx hd)
  have h₂ := h₁.snoc (step_dump _ (.loadLabel s.base.alarm.requested) hx rfl)
  rw [List.append_assoc] at h₂
  exact ⟨_, _, _, _, h₂, rfl, rfl, step_dump _ (.print _ _) hx rfl⟩

/-- The condition is the exact one: a signal that does not meet it makes the handler print a
label before the input has entered any call. -/
theorem stale_of_not_clean {es : List (Event J C)} {s t : State J C} {a : Action J C}
    {e : Event J C} (h : (system J C cfg).Run es s) (hs : step cfg s a = some (e, t))
    (hc : ¬ Clean s a) :
    ∃ fs u v d k l, (system J C cfg).Run (es ++ fs) u ∧ Executing u ∧
      step cfg u (.base .dump) = some (.base (.dumpPrinted d k l), v) ∧
      ¬ Names u.table (lastEntered (es ++ fs)) l := by
  simp only [Clean, Classical.not_imp] at hc
  obtain ⟨hdeliver, hu, hr, hlabel⟩ := hc
  obtain ⟨i, hi⟩ := Option.ne_none_iff_exists'.mp hlabel
  have hfresh := (Run.labels h).fresh (.inr hr)
  rcases step_cases hs with ⟨a', e', b, rfl, -, hb, rfl, rfl⟩ | ⟨call, b, rfl, rfl, -, -, hr', -⟩ |
    ⟨table, rfl, rfl, -, hr', -⟩
  · obtain rfl : a' = .deliverDump := by cases a' <;> simp [Action.delivers] at hdeliver ⊢
    obtain ⟨hx, rfl, rfl⟩ := deliverDump_eq hb
    have hstep : (system J C cfg).step s (.base .deliverDump) = some _ := hs
    obtain ⟨u, v, d, k, hrun, hhandoff, hunit, hs'⟩ := run_to_print (h.snoc hstep) hx rfl
    rw [List.append_assoc] at hrun
    refine ⟨_, u, v, d, k, _, hrun, ⟨hunit ▸ hu, .inl (hhandoff ▸ hr)⟩, hs', ?_⟩
    rintro ⟨hnames, -⟩
    obtain ⟨e, -, he⟩ := hnames i hi
    have hlast : lastEntered es = some (.call e.call) := by
      simpa [lastEntered, noteEntered] using he
    simp [hfresh] at hlast
  · simp [hr] at hr'
  · simp [hr] at hr'

instance (s : State J C) : Decidable (Executing s) := inferInstanceAs (Decidable (_ ∧ _))

/-- The warm-up of a target with one call, and its first input up to the entry of its job. -/
def warmUpSchedule : List (Action Unit Unit) := List.flatten
  [[.base (.call ())], .replicate 10 (.base .main), .replicate 8 (.base .rThread),
    [.labelCalls zeroed (fun _ _ => none) [.call ()], .enter (.call ())],
    .replicate 7 (.base .rThread), .replicate 6 (.base .main),
    [.base (.testOneInput ())], .replicate 8 (.base .main), .replicate 7 (.base .rThread)]

/-- A tick three seconds later, the request it makes, and the handler up to its print. -/
def dumpSchedule : List (Action Unit Unit) := List.flatten
  [[.base (.advance (.second 13)), .base .tick], .replicate 10 (.base (.alarm false false)),
    [.base .deliverDump, .base .dump, .base .dump]]

/-- What the next statement of the handler shows. -/
def printed (s : State Unit Unit) : Option (Event Unit Unit) :=
  (step TimeoutAlarm.threeSeconds s (.base .dump)).map Prod.fst

/-- An input that has entered the call. -/
theorem dump_names_own_call_entered :
    ∃ es s, ((system Unit Unit TimeoutAlarm.threeSeconds).restrict Clean).Run es s ∧
      Names s.table (lastEntered es) (some 0) := by
  obtain ⟨es, s, hrun, heq⟩ := System.Run.of_schedule
    (S := (system Unit Unit TimeoutAlarm.threeSeconds).restrict Clean)
    (fun p => (printed p.2, decide (Executing p.2)))
    (⟨.initial (.second 10), []⟩ : State Unit Unit)
    (warmUpSchedule ++ [.base .rThread, .enter (.call ())] ++ dumpSchedule)
    (y := (some (.base (.dumpPrinted 0 2 (some 0))), true)) ⟨⟨_, rfl⟩, rfl⟩ (by decide +kernel)
  obtain ⟨hprinted, hin⟩ := Prod.mk.inj heq
  obtain ⟨⟨e, t⟩, hs, he⟩ := Option.map_eq_some_iff.mp hprinted
  obtain rfl : e = _ := he
  exact ⟨es, s, hrun, dump_names_own_call hrun hs (of_decide_eq_true hin)⟩

/-- A dump requested at the entry of the first input's job prints the label of the warm-up. -/
theorem dump_names_own_call_stale :
    ∃ es s t d k l, (system Unit Unit TimeoutAlarm.threeSeconds).Run es s ∧ Executing s ∧
      step TimeoutAlarm.threeSeconds s (.base .dump) = some (.base (.dumpPrinted d k l), t) ∧
      ¬ Names s.table (lastEntered es) l := by
  obtain ⟨es, s, hrun, heq⟩ := System.Run.of_schedule
    (S := system Unit Unit TimeoutAlarm.threeSeconds)
    (fun p => (printed p.2, decide (Executing p.2), lastEntered p.1))
    (⟨.initial (.second 10), []⟩ : State Unit Unit) (warmUpSchedule ++ dumpSchedule)
    (y := (some (.base (.dumpPrinted 0 2 (some 0))), true, none)) ⟨⟨_, rfl⟩, rfl⟩
    (by decide +kernel)
  obtain ⟨hprinted, hrest⟩ := Prod.mk.inj heq
  obtain ⟨hin, hlast⟩ := Prod.mk.inj hrest
  obtain ⟨⟨e, t⟩, hs, he⟩ := Option.map_eq_some_iff.mp hprinted
  obtain rfl : e = _ := he
  refine ⟨es, s, t, 0, 2, some 0, hrun, of_decide_eq_true hin, hs, fun hnames => ?_⟩
  obtain ⟨e, -, he⟩ := hnames.1 0 rfl
  have hlast' : lastEntered es = none := hlast
  rw [hlast'] at he
  cases he

end Printed
end ROssFuzz.DumpLabels
