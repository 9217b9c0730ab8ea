import ROssFuzz.NormalisedTimespec
import ROssFuzz.RThreadHandoff
import ROssFuzz.TransitionRuns

/-!
# Timeout diagnostics

The handoff together with `fuzz_alarm`: the SIGALRM handler on the main thread's
stack, the dump handler on the R thread's, the atomics they share, the clock, and the
part of libFuzzer the handler hands its tick to. A step is one statement of one of
them, picked by the scheduler. While `tick` is set the main thread is suspended, while
`dump` is set the R thread is. Plain variables are read and written by the statement
that names them; the atomics are sequentially consistent.

`exited` stands for the end of the process: libFuzzer reports a timeout and exits.
-/

namespace ROssFuzz.TimeoutAlarm
open RThreadHandoff TransitionRuns

/-- Whole seconds since a moment (`fuzz_seconds_since`), with the clock's reading given. -/
def fuzzSecondsSince (now since : Timespec) : ℤ :=
  let seconds := now.sec - since.sec
  if now.nsec < since.nsec then seconds - 1 else seconds

structure Config where
  /-- `-timeout=N`, in seconds. -/
  timeout : ℤ
  /-- The first input finds libFuzzer's handler, and both `sigaction` calls succeed. -/
  alarmPresent : Bool
  /-- `FUZZ_DUMP_SIGNAL` is a real-time signal: every request is queued. -/
  queues : Bool
  /-- The chained handler may report a timeout and let it pass. -/
  lenient : Bool

/-- The fields of `fuzz_alarm` that change, and `fuzz_label_current` (`none` is -1). -/
structure Alarm where
  wrapped : Bool
  installed : Bool
  armed : Timespec
  started : Timespec
  running : Bool
  finishing : Bool
  input : ℕ
  requested : ℕ
  done : ℕ
  label : Option ℕ
  deriving DecidableEq

/-- How a tick got to libFuzzer: it found no input running, it found the input young
by the reading given, or it held. -/
inductive Route | idle | young (reading : Timespec) | held (input : ℕ)
  deriving DecidableEq

/-- The statements of `fuzz_alarm_handler`, with its local variables. -/
inductive TickPc
  | finishingTest | runningTest | armedTest
  | readAge | runningLook (age : ℤ) | nanosleep | storeFinishing
  | loadInput | requestedTest (input : ℕ) | storeRequested (input : ℕ)
  | writeHeader (input : ℕ) | killRThread (input : ℕ) | storeDone (input : ℕ)
  | doneTest (input i : ℕ) | stillRunningTest (input i : ℕ) | waitNanosleep (input i : ℕ)
  | chain (route : Route)
  deriving DecidableEq

/-- The statements of `fuzz_dump_handler`. -/
inductive DumpPc
  | loadRequested | loadLabel (input : ℕ) | print (input : ℕ) (label : Option ℕ)
  | storeDone (input : ℕ)
  deriving DecidableEq

structure State (J : Type) where
  handoff : Handoff J
  alarm : Alarm
  tick : Option TickPc
  dump : Option DumpPc
  /-- Dump signals sent to the R thread and not yet delivered. -/
  pending : ℕ
  now : Timespec
  /-- Where libFuzzer's clock for the input started, while its callback runs. -/
  unit : Option Timespec
  exited : Bool
  /-- History: whether an input was running when the tick was delivered, whether the
  call in progress was released from a hold, and the number of dumps completed. -/
  tickRunning : Bool
  released : Bool
  dumps : ℕ
  deriving DecidableEq

inductive Actor | main | rThread | alarm | dump | clock deriving DecidableEq

/-- Who entered the call: libFuzzer's input, with `armed` and the start of libFuzzer's
clock for it, or other code, with whether the alarm was wrapped by then. -/
inductive Caller | other (installed : Bool) | input (armed clock : Timespec)
  deriving DecidableEq

/-- What a step did. `n` is the number of the call, `k` the number the source gives
the input, `d` the number of the dump. -/
inductive Event (J : Type)
  | silent (actor : Actor)
  | called (n : ℕ) (j : J) (caller : Caller)
  | executed (n : ℕ) (j : J)
  /-- The R thread reads a job whose frame is gone. -/
  | wildRead
  | started (n : ℕ) (t : Timespec)
  | runningSet (n : ℕ)
  | finished (n : ℕ)
  | returned (n : ℕ)
  | ticked (running : Bool)
  | dropped (running : Bool)
  | ageRead (n : ℕ) (t : Timespec)
  | sawRunning (n : ℕ)
  | sawFinished (n : ℕ)
  | requested (n k : ℕ)
  | killFailed (n : ℕ)
  | doneSeen (n : ℕ)
  | chained (n : ℕ) (route : Route) (t : Timespec) (reported : Bool)
  | dumpPrinted (d k : ℕ) (label : Option ℕ)
  | dumpDone (d k : ℕ)
  | forked
  deriving DecidableEq

/-- The scheduler's choices. `alarm` says whether `pthread_kill` fails and whether a
reported timeout is let pass; `label` is a `fuzz_label_enter` made by the running job. -/
inductive Action (J : Type)
  | advance (t : Timespec)
  | call (j : J) | testOneInput (j : J)
  | main | rThread | label (l : Option ℕ)
  | tick | alarm (killFails letPass : Bool)
  | deliverDump | dump
  | wakeMain | wakeRThread
  | fork

variable {J : Type}

/-- `atomic_fetch_add(&fuzz_alarm.input, 1)` on an `atomic_uint`. -/
def bump (k : ℕ) : ℕ := (k + 1) % 2 ^ 32

/-- What the statement of the main thread does to the alarm's variables. The value
`bumpInput` left is the one it returned plus one: only the main thread writes it. -/
def mainEffect (cfg : Config) (pc : MainPc) (now : Timespec) (a : Alarm) : Alarm :=
  match pc with
  | .alarmWrap =>
      if a.wrapped then a else { a with wrapped := true, installed := cfg.alarmPresent }
  | .bumpInput => { a with input := bump a.input }
  | .skipZero => if a.input = 0 then { a with input := bump a.input } else a
  | .clearFinishing => { a with finishing := false }
  | .readArmed => { a with armed := now }
  | _ => a

/-- What the statement of the R thread does to them. `fuzz_do_target_run` clears the
label before and after an input; a job that is not an input's leaves it. -/
def rEffect (isInput : Bool) (pc : RPc) (now : Timespec) (a : Alarm) : Alarm :=
  match pc with
  | .readStarted => { a with started := now }
  | .setRunning => { a with running := true }
  | .labelReset | .labelClear => if isInput then { a with label := none } else a
  | .clearRunning => { a with running := false }
  | _ => a

section Effects
variable (cfg : Config) (isInput : Bool) (pc : MainPc) (rpc : RPc) (now : Timespec) (a : Alarm)

/-- What the main thread writes, beside the wrapping of the handler. -/
theorem mainEffect_eq : mainEffect cfg pc now a = { a with
    wrapped := (mainEffect cfg pc now a).wrapped
    installed := (mainEffect cfg pc now a).installed
    armed := if pc = .readArmed then now else a.armed
    finishing := if pc = .clearFinishing then false else a.finishing
    input := if pc = .bumpInput ∨ pc = .skipZero ∧ a.input = 0 then bump a.input else a.input } := by
  cases a
  cases pc <;> simp [mainEffect] <;> split <;> simp_all

@[simp] theorem mainEffect_armed :
    (mainEffect cfg pc now a).armed = if pc = .readArmed then now else a.armed := by
  rw [mainEffect_eq]

@[simp] theorem mainEffect_started : (mainEffect cfg pc now a).started = a.started := by
  rw [mainEffect_eq]

@[simp] theorem mainEffect_running : (mainEffect cfg pc now a).running = a.running := by
  rw [mainEffect_eq]

@[simp] theorem mainEffect_finishing :
    (mainEffect cfg pc now a).finishing = if pc = .clearFinishing then false else a.finishing := by
  rw [mainEffect_eq]

@[simp] theorem mainEffect_requested : (mainEffect cfg pc now a).requested = a.requested := by
  rw [mainEffect_eq]

@[simp] theorem mainEffect_done : (mainEffect cfg pc now a).done = a.done := by
  rw [mainEffect_eq]

@[simp] theorem mainEffect_input :
    (mainEffect cfg pc now a).input =
      if pc = .bumpInput ∨ pc = .skipZero ∧ a.input = 0 then bump a.input else a.input := by
  rw [mainEffect_eq]

/-- What the R thread writes, beside the label. -/
theorem rEffect_eq : rEffect isInput rpc now a = { a with
    started := if rpc = .readStarted then now else a.started
    running := if rpc = .setRunning then true else if rpc = .clearRunning then false else a.running
    label := (rEffect isInput rpc now a).label } := by
  cases rpc <;> simp [rEffect] <;> split <;> rfl

@[simp] theorem rEffect_armed : (rEffect isInput rpc now a).armed = a.armed := by
  rw [rEffect_eq]

@[simp] theorem rEffect_started :
    (rEffect isInput rpc now a).started = if rpc = .readStarted then now else a.started := by
  rw [rEffect_eq]

@[simp] theorem rEffect_running :
    (rEffect isInput rpc now a).running =
      if rpc = .setRunning then true else if rpc = .clearRunning then false else a.running := by
  rw [rEffect_eq]

@[simp] theorem rEffect_finishing : (rEffect isInput rpc now a).finishing = a.finishing := by
  rw [rEffect_eq]

@[simp] theorem rEffect_input : (rEffect isInput rpc now a).input = a.input := by
  rw [rEffect_eq]

@[simp] theorem rEffect_requested : (rEffect isInput rpc now a).requested = a.requested := by
  rw [rEffect_eq]

@[simp] theorem rEffect_done : (rEffect isInput rpc now a).done = a.done := by
  rw [rEffect_eq]

end Effects

def mainEvent (h : Handoff J) : Event J :=
  match h.main with
  | .ret => .returned h.calls
  | _ => .silent .main

def rEvent (h : Handoff J) (now : Timespec) : Event J :=
  match h.r with
  | .readStarted => .started h.taken now
  | .setRunning => .runningSet h.taken
  | .readJob => match h.readJob with
      | some j => .executed h.taken j
      | none => .wildRead
  | .clearRunning => .finished h.taken
  | _ => .silent .rThread

def mainStep (cfg : Config) (s : State J) : Option (Event J × State J) :=
  s.handoff.mainStep.map fun h => (mainEvent s.handoff, { s with
    handoff := h
    alarm := mainEffect cfg s.handoff.main s.now s.alarm
    unit := if s.handoff.main = .ret then none else s.unit })

def rStep (s : State J) : Option (Event J × State J) :=
  s.handoff.rStep.map fun h => (rEvent s.handoff s.now, { s with
    handoff := h
    alarm := rEffect s.unit.isSome s.handoff.r s.now s.alarm })

/-- libFuzzer's handler reports a timeout exactly when the callback has not returned
and the timeout has passed, in whole seconds, since its clock for the input started. -/
def reports (cfg : Config) (s : State J) : Bool :=
  match s.unit with
  | some start => decide (cfg.timeout ≤ fuzzSecondsSince s.now start)
  | none => false

def State.goto (s : State J) (pc : TickPc) : Event J × State J :=
  (.silent .alarm, { s with tick := some pc })

/-- One statement of `fuzz_alarm_handler`. -/
def alarmStep (cfg : Config) (killFails letPass : Bool) (s : State J) :
    TickPc → Event J × State J
  | .finishingTest =>
      if s.alarm.finishing then (.dropped s.tickRunning, { s with tick := none })
      else s.goto .runningTest
  | .runningTest => if s.alarm.running then s.goto .armedTest else s.goto (.chain .idle)
  | .armedTest =>
      if fuzzSecondsSince s.now s.alarm.armed ≥ cfg.timeout - 1 then s.goto .readAge
      else s.goto (.chain (.young s.now))
  | .readAge => (.ageRead s.handoff.calls s.now, { s with
      tick := some (.runningLook (fuzzSecondsSince s.now s.alarm.started)) })
  | .runningLook age =>
      if s.alarm.running then (.sawRunning s.handoff.calls, { s with
        tick := some (if age ≥ cfg.timeout then .loadInput else .nanosleep) })
      else s.goto .storeFinishing
  | .nanosleep => s.goto .readAge
  | .storeFinishing => (.sawFinished s.handoff.calls, { s with
      alarm := { s.alarm with finishing := true }, tick := none, released := true })
  | .loadInput => s.goto (.requestedTest s.alarm.input)
  | .requestedTest k =>
      if s.alarm.requested ≠ k then s.goto (.storeRequested k) else s.goto (.doneTest k 0)
  | .storeRequested k => (.requested s.handoff.calls k, { s with
      alarm := { s.alarm with requested := k }, tick := some (.writeHeader k) })
  | .writeHeader k => s.goto (.killRThread k)
  | .killRThread k =>
      if killFails then s.goto (.storeDone k)
      else (.silent .alarm, { s with
        pending := if cfg.queues then s.pending + 1 else 1, tick := some (.doneTest k 0) })
  | .storeDone k => (.killFailed s.handoff.calls, { s with
      alarm := { s.alarm with done := k }, tick := some (.doneTest k 0) })
  | .doneTest k i =>
      if i < 5000 then
        if s.alarm.done = k then (.doneSeen s.handoff.calls, { s with tick := some (.chain (.held k)) })
        else s.goto (.stillRunningTest k i)
      else s.goto (.chain (.held k))
  | .stillRunningTest k i => if s.alarm.running then s.goto (.waitNanosleep k i) else s.goto (.chain (.held k))
  | .waitNanosleep k i => s.goto (.doneTest k (i + 1))
  | .chain route => (.chained s.handoff.calls route s.now (reports cfg s), { s with
      tick := none, exited := reports cfg s && !letPass })

/-- One statement of `fuzz_dump_handler`. -/
def dumpStep (s : State J) : DumpPc → Event J × State J
  | .loadRequested => (.silent .dump, { s with dump := some (.loadLabel s.alarm.requested) })
  | .loadLabel k => (.silent .dump, { s with dump := some (.print k s.alarm.label) })
  | .print k l => (.dumpPrinted s.dumps k l, { s with dump := some (.storeDone k) })
  | .storeDone k => (.dumpDone s.dumps k, { s with
      alarm := { s.alarm with done := k }, dump := none, dumps := s.dumps + 1 })

section Frames
variable (cfg : Config) (killFails letPass : Bool) (s : State J) (pc : TickPc)

/-- The handler writes `finishing`, `requested` and `done`, and otherwise only what is its own. -/
theorem alarmStep_eq :
    (alarmStep cfg killFails letPass s pc).2 = { s with
      alarm := { s.alarm with
        finishing := (alarmStep cfg killFails letPass s pc).2.alarm.finishing
        requested := (alarmStep cfg killFails letPass s pc).2.alarm.requested
        done := (alarmStep cfg killFails letPass s pc).2.alarm.done }
      tick := (alarmStep cfg killFails letPass s pc).2.tick
      pending := (alarmStep cfg killFails letPass s pc).2.pending
      exited := (alarmStep cfg killFails letPass s pc).2.exited
      released := (alarmStep cfg killFails letPass s pc).2.released } := by
  cases pc <;> simp only [alarmStep, State.goto] <;> (repeat' split) <;> rfl

@[simp] theorem alarmStep_handoff :
    (alarmStep cfg killFails letPass s pc).2.handoff = s.handoff := by
  rw [alarmStep_eq]

@[simp] theorem alarmStep_now : (alarmStep cfg killFails letPass s pc).2.now = s.now := by
  rw [alarmStep_eq]

@[simp] theorem alarmStep_unit : (alarmStep cfg killFails letPass s pc).2.unit = s.unit := by
  rw [alarmStep_eq]

@[simp] theorem alarmStep_tickRunning :
    (alarmStep cfg killFails letPass s pc).2.tickRunning = s.tickRunning := by
  rw [alarmStep_eq]

@[simp] theorem alarmStep_armed :
    (alarmStep cfg killFails letPass s pc).2.alarm.armed = s.alarm.armed := by
  rw [alarmStep_eq]

@[simp] theorem alarmStep_started :
    (alarmStep cfg killFails letPass s pc).2.alarm.started = s.alarm.started := by
  rw [alarmStep_eq]

@[simp] theorem alarmStep_running :
    (alarmStep cfg killFails letPass s pc).2.alarm.running = s.alarm.running := by
  rw [alarmStep_eq]

@[simp] theorem alarmStep_input :
    (alarmStep cfg killFails letPass s pc).2.alarm.input = s.alarm.input := by
  rw [alarmStep_eq]

@[simp] theorem alarmStep_installed :
    (alarmStep cfg killFails letPass s pc).2.alarm.installed = s.alarm.installed := by
  rw [alarmStep_eq]

end Frames

/-- Whose statement shows an event. A call, a tick and a fork come from outside. -/
def Event.actor : Event J → Actor
  | .silent actor => actor
  | .returned _ => .main
  | .executed _ _ | .wildRead | .started _ _ | .runningSet _ | .finished _ => .rThread
  | .dropped _ | .ageRead _ _ | .sawRunning _ | .sawFinished _ | .requested _ _ | .killFailed _
  | .doneSeen _ | .chained _ _ _ _ => .alarm
  | .dumpPrinted _ _ _ | .dumpDone _ _ => .dump
  | .called _ _ _ | .ticked _ | .forked => .clock

@[simp] theorem mainEvent_actor (h : Handoff J) : (mainEvent h).actor = .main := by
  unfold mainEvent
  split <;> rfl

@[simp] theorem rEvent_actor (h : Handoff J) (now : Timespec) :
    (rEvent h now).actor = .rThread := by
  unfold rEvent
  (repeat' split) <;> rfl

@[simp] theorem alarmStep_actor (cfg : Config) (killFails letPass : Bool) (s : State J)
    (pc : TickPc) : (alarmStep cfg killFails letPass s pc).1.actor = .alarm := by
  cases pc <;> simp only [alarmStep, State.goto] <;> (repeat' split) <;> rfl

@[simp] theorem dumpStep_actor (s : State J) (pc : DumpPc) : (dumpStep s pc).1.actor = .dump := by
  cases pc <;> rfl

/-- A step of a process that is still there. -/
def liveStep (cfg : Config) (s : State J) : Action J → Option (Event J × State J)
  | .advance t => if s.now ≤ t then some (.silent .clock, { s with now := t }) else none
  | .call j =>
      if s.handoff.main = .outside ∧ s.tick = none then
        some (.called (s.handoff.calls + 1) j (.other s.alarm.installed), { s with
          handoff := s.handoff.enter .startedTest j, released := false })
      else none
  | .testOneInput j =>
      if s.handoff.main = .outside ∧ s.tick = none then
        some (.called (s.handoff.calls + 1) j (.input s.alarm.armed s.now), { s with
          handoff := s.handoff.enter .alarmWrap j, unit := some s.now, released := false })
      else none
  | .main => if s.tick = none then mainStep cfg s else none
  | .rThread => if s.dump = none then rStep s else none
  | .label l =>
      if s.dump = none ∧ s.handoff.r = .runJob then
        some (.silent .rThread, { s with alarm := { s.alarm with label := l } })
      else none
  | .tick =>
      if s.tick = none ∧ s.alarm.installed then
        some (.ticked s.alarm.running, { s with
          tick := some .finishingTest, tickRunning := s.alarm.running })
      else none
  | .alarm killFails letPass =>
      if letPass ∧ ¬ cfg.lenient then none
      else s.tick.map (alarmStep cfg killFails letPass s)
  | .deliverDump =>
      if s.dump = none ∧ 0 < s.pending ∧ s.handoff.r ≠ .absent then
        some (.silent .dump, { s with pending := s.pending - 1, dump := some .loadRequested })
      else none
  | .dump => s.dump.map (dumpStep s)
  | .wakeMain => s.handoff.wakeMain.map fun h => (.silent .main, { s with handoff := h })
  | .wakeRThread => s.handoff.wakeR.map fun h => (.silent .rThread, { s with handoff := h })
  | .fork =>
      if s.handoff.main = .outside ∧ s.tick = none then
        some (.forked, { s with handoff := s.handoff.child, dump := none, pending := 0 })
      else none

def step (cfg : Config) (s : State J) (a : Action J) : Option (Event J × State J) :=
  if s.exited then none else liveStep cfg s a

/-- Static storage as the process starts; the clock may show anything. -/
def State.initial (now : Timespec) : State J where
  handoff := .initial
  alarm := {
    wrapped := false
    installed := false
    armed := .zero
    started := .zero
    running := false
    finishing := false
    input := 0
    requested := 0
    done := 0
    label := none }
  tick := none
  dump := none
  pending := 0
  now := now
  unit := none
  exited := false
  tickRunning := false
  released := false
  dumps := 0

def system (J : Type) (cfg : Config) : System (State J) (Action J) (Event J) where
  init s := ∃ now, s = .initial now
  step := step cfg

/-- What a step can do, guards included. -/
inductive Moves (cfg : Config) (s : State J) : Event J → State J → Prop
  | advance (t : Timespec) (h : s.now ≤ t) :
      Moves cfg s (.silent .clock) { s with now := t }
  | call (j : J) (hm : s.handoff.main = .outside) (ht : s.tick = none) :
      Moves cfg s (.called (s.handoff.calls + 1) j (.other s.alarm.installed))
        { s with handoff := s.handoff.enter .startedTest j, released := false }
  | testOneInput (j : J) (hm : s.handoff.main = .outside) (ht : s.tick = none) :
      Moves cfg s (.called (s.handoff.calls + 1) j (.input s.alarm.armed s.now))
        { s with
          handoff := s.handoff.enter .alarmWrap j, unit := some s.now, released := false }
  | main (h : Handoff J) (ht : s.tick = none) (hh : s.handoff.mainStep = some h) :
      Moves cfg s (mainEvent s.handoff) { s with
        handoff := h
        alarm := mainEffect cfg s.handoff.main s.now s.alarm
        unit := if s.handoff.main = .ret then none else s.unit }
  | rThread (h : Handoff J) (hd : s.dump = none) (hh : s.handoff.rStep = some h) :
      Moves cfg s (rEvent s.handoff s.now) { s with
        handoff := h
        alarm := rEffect s.unit.isSome s.handoff.r s.now s.alarm }
  | label (l : Option ℕ) (hd : s.dump = none) (hr : s.handoff.r = .runJob) :
      Moves cfg s (.silent .rThread) { s with alarm := { s.alarm with label := l } }
  | tick (ht : s.tick = none) (hw : s.alarm.installed = true) :
      Moves cfg s (.ticked s.alarm.running)
        { s with tick := some .finishingTest, tickRunning := s.alarm.running }
  | alarm (killFails letPass : Bool) (pc : TickPc) (hl : letPass = true → cfg.lenient = true)
      (ht : s.tick = some pc) :
      Moves cfg s (alarmStep cfg killFails letPass s pc).1 (alarmStep cfg killFails letPass s pc).2
  | deliverDump (hd : s.dump = none) (hp : 0 < s.pending) (hr : s.handoff.r ≠ .absent) :
      Moves cfg s (.silent .dump)
        { s with pending := s.pending - 1, dump := some .loadRequested }
  | dump (pc : DumpPc) (hd : s.dump = some pc) : Moves cfg s (dumpStep s pc).1 (dumpStep s pc).2
  | wakeMain (h : Handoff J) (hh : s.handoff.wakeMain = some h) :
      Moves cfg s (.silent .main) { s with handoff := h }
  | wakeRThread (h : Handoff J) (hh : s.handoff.wakeR = some h) :
      Moves cfg s (.silent .rThread) { s with handoff := h }
  | fork (hm : s.handoff.main = .outside) (ht : s.tick = none) :
      Moves cfg s .forked { s with handoff := s.handoff.child, dump := none, pending := 0 }

theorem step_moves {cfg : Config} {s s' : State J} {a : Action J} {e : Event J}
    (hs : step cfg s a = some (e, s')) : s.exited = false ∧ Moves cfg s e s' := by
  rw [step, Option.ite_none_left_eq_some] at hs
  obtain ⟨hx, hs⟩ := hs
  refine ⟨by simpa using hx, ?_⟩
  cases a <;> simp only [liveStep, Option.ite_none_right_eq_some, Option.ite_none_left_eq_some,
    Option.map_eq_some_iff, Option.some.injEq, Prod.mk.injEq, mainStep, rStep] at hs
  case advance => obtain ⟨h, rfl, rfl⟩ := hs; exact .advance _ h
  case call => obtain ⟨⟨hm, ht⟩, rfl, rfl⟩ := hs; exact .call _ hm ht
  case testOneInput => obtain ⟨⟨hm, ht⟩, rfl, rfl⟩ := hs; exact .testOneInput _ hm ht
  case main => obtain ⟨ht, h, hh, rfl, rfl⟩ := hs; exact .main h ht hh
  case rThread => obtain ⟨hd, h, hh, rfl, rfl⟩ := hs; exact .rThread h hd hh
  case label => obtain ⟨⟨hd, hr⟩, rfl, rfl⟩ := hs; exact .label _ hd hr
  case tick => obtain ⟨⟨ht, hw⟩, rfl, rfl⟩ := hs; exact .tick ht hw
  case alarm killFails letPass =>
    obtain ⟨hl, pc, ht, hpc⟩ := hs
    have hmove : Moves cfg s _ _ := .alarm killFails letPass pc (by simpa using hl) ht
    rwa [hpc] at hmove
  case deliverDump => obtain ⟨⟨hd, hp, hr⟩, rfl, rfl⟩ := hs; exact .deliverDump hd hp hr
  case dump =>
    obtain ⟨pc, hd, hpc⟩ := hs
    have hmove : Moves cfg s _ _ := .dump pc hd
    rwa [hpc] at hmove
  case wakeMain => obtain ⟨h, hh, rfl, rfl⟩ := hs; exact .wakeMain h hh
  case wakeRThread => obtain ⟨h, hh, rfl, rfl⟩ := hs; exact .wakeRThread h hh
  case fork => obtain ⟨⟨hm, ht⟩, rfl, rfl⟩ := hs; exact .fork hm ht

/-- The event each action has. -/
def Action.Shows (cfg : Config) (s : State J) (e : Event J) : Action J → Prop
  | .advance _ | .label _ | .deliverDump | .wakeMain | .wakeRThread => ∃ actor, e = .silent actor
  | .call j => ∃ c, e = .called (s.handoff.calls + 1) j c
  | .testOneInput j => ∃ c, e = .called (s.handoff.calls + 1) j c
  | .main => e = mainEvent s.handoff
  | .rThread => e = rEvent s.handoff s.now
  | .tick => e = .ticked s.alarm.running
  | .alarm killFails letPass => ∃ pc, e = (alarmStep cfg killFails letPass s pc).1
  | .dump => ∃ pc, e = (dumpStep s pc).1
  | .fork => e = .forked

theorem step_shows {cfg : Config} {s s' : State J} {a : Action J} {e : Event J}
    (hs : step cfg s a = some (e, s')) : a.Shows cfg s e := by
  rw [step, Option.ite_none_left_eq_some] at hs
  replace hs := hs.2
  cases a <;> simp only [liveStep, Option.ite_none_right_eq_some, Option.ite_none_left_eq_some,
    Option.map_eq_some_iff, Option.some.injEq, Prod.mk.injEq, mainStep, rStep] at hs
  case advance | label | deliverDump => exact ⟨_, hs.2.1.symm⟩
  case wakeMain | wakeRThread =>
    obtain ⟨_, _, he, -⟩ := hs
    exact ⟨_, he.symm⟩
  case call | testOneInput => exact ⟨_, hs.2.1.symm⟩
  case main | rThread =>
    obtain ⟨_, _, _, he, -⟩ := hs
    exact he.symm
  case tick | fork => exact hs.2.1.symm
  case alarm =>
    obtain ⟨_, pc, _, he⟩ := hs
    exact ⟨pc, by rw [he]⟩
  case dump =>
    obtain ⟨pc, _, he⟩ := hs
    exact ⟨pc, by rw [he]⟩

/-- The thread whose statement an action lets run. -/
def Action.actor : Action J → Option Actor
  | .main => some .main
  | .rThread => some .rThread
  | .alarm _ _ => some .alarm
  | .dump => some .dump
  | _ => none

theorem step_actor {cfg : Config} {s s' : State J} {a : Action J} {e : Event J} {actor : Actor}
    (hs : step cfg s a = some (e, s')) (ha : a.actor = some actor) : e.actor = actor := by
  have hshow := step_shows hs
  cases a with
  | main =>
    obtain rfl : e = mainEvent s.handoff := hshow
    simpa [Action.actor] using ha
  | rThread =>
    obtain rfl : e = rEvent s.handoff s.now := hshow
    simpa [Action.actor] using ha
  | alarm killFails letPass =>
    obtain ⟨pc, rfl⟩ := hshow
    simpa [Action.actor] using ha
  | dump =>
    obtain ⟨pc, rfl⟩ := hshow
    simpa [Action.actor] using ha
  | _ => cases ha

/-- A schedule carried out from the start of a process is a run. -/
theorem run_of_schedule {cfg : Config} (now : Timespec) (as : List (Action J))
    {es : List (Event J)} {n : ℕ}
    (h : ((system J cfg).exec (.initial now) as).map (Prod.map id (·.handoff.calls)) =
      some (es, n)) :
    ∃ s, (system J cfg).Run es s ∧ s.handoff.calls = n :=
  System.Run.of_exec _ _ as ⟨now, rfl⟩ h

end ROssFuzz.TimeoutAlarm
