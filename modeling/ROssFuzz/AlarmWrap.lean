import ROssFuzz.TransitionRuns

/-!
# Wrapping libFuzzer's alarm

`fuzz_alarm_wrap` runs before each input, a statement at a time, and a tick of the alarm can land
between any two of its statements. The kernel keeps an action for SIGALRM and one for
`FUZZ_DUMP_SIGNAL`; libFuzzer leaves an installed SIGALRM handler alone. Any `sigaction` may fail.
What the wrapper does with a tick is in `TimeoutAlarm`.
-/

namespace ROssFuzz.AlarmWrap
open TransitionRuns

/-- `null` is `SIG_DFL` too; `foreign` are functions of others, libFuzzer's among them. -/
inductive Handler | null | fuzzAlarmHandler | fuzzDumpHandler | foreign (f : ℕ)
  deriving DecidableEq

structure Sigaction where
  handler : Handler
  /-- `SA_SIGINFO` among the flags. -/
  siginfo : Bool
  deriving DecidableEq

/-- The statements of `fuzz_alarm_wrap`, with its local variable. -/
inductive Pc
  | wrappedTest | storeWrapped | readAlarm
  | currentTest (current : Sigaction)
  | installDump (current : Sigaction)
  | storeChain (current : Sigaction)
  | installWrapper (current : Sigaction)
  | restoreDump | ret
  deriving DecidableEq

structure State where
  alarm : Sigaction
  dump : Sigaction
  wrapped : Bool
  chain : Sigaction
  pc : Option Pc
  deriving DecidableEq

inductive Event
  | silent
  | installed (action : Sigaction)
  /-- `sigaction` fails. -/
  | failed
  /-- The call returns, with whether the wrapper has SIGALRM. -/
  | returned (on : Bool)
  /-- A tick runs a handler that is not the wrapper. -/
  | ticked (action : Sigaction)
  /-- A tick runs the wrapper: what a dump signal then runs, and what is in `fuzz_alarm.chain`. -/
  | wrapperTicked (dump chain : Sigaction)
  deriving DecidableEq

inductive Action
  | install (f : ℕ) (siginfo : Bool)
  | call
  | statement (ok : Bool)
  | tick

def dumpAction : Sigaction := ⟨.fuzzDumpHandler, true⟩

def State.on (s : State) : Bool := s.alarm.handler = .fuzzAlarmHandler

def State.goto (s : State) (pc : Pc) : State := { s with pc := some pc }

/-- `ok` is whether the statement's `sigaction` succeeds. -/
def statement (ok : Bool) (s : State) : Pc → Event × State
  | .wrappedTest => (.silent, s.goto (if s.wrapped then .ret else .storeWrapped))
  | .storeWrapped => (.silent, { s with wrapped := true }.goto .readAlarm)
  | .readAlarm => if ok then (.silent, s.goto (.currentTest s.alarm)) else (.failed, s.goto .ret)
  | .currentTest current => (.silent, s.goto
      (if !current.siginfo || current.handler = .null then .ret else .installDump current))
  | .installDump current =>
      if ok then (.silent, { s with dump := dumpAction }.goto (.storeChain current))
      else (.failed, s.goto .ret)
  | .storeChain current => (.silent, { s with chain := current }.goto (.installWrapper current))
  | .installWrapper current =>
      if ok then (.silent, { s with alarm := { current with handler := .fuzzAlarmHandler } }.goto .ret)
      else (.failed, s.goto .restoreDump)
  | .restoreDump =>
      if ok then (.silent, { s with dump := ⟨.null, false⟩ }.goto .ret) else (.failed, s.goto .ret)
  | .ret => (.returned s.on, { s with pc := none })

/-- What SIGALRM does where it has a handler. -/
def tick (s : State) : Option Event :=
  match s.alarm.handler with
  | .null => none
  | .fuzzAlarmHandler => some (.wrapperTicked s.dump s.chain)
  | _ => some (.ticked s.alarm)

def step (s : State) : Action → Option (Event × State)
  | .install f siginfo =>
      if s.pc = none ∧ s.alarm.handler = .null then
        some (.installed ⟨.foreign f, siginfo⟩, { s with alarm := ⟨.foreign f, siginfo⟩ })
      else none
  | .call => if s.pc = none then some (.silent, s.goto .wrappedTest) else none
  | .statement ok => s.pc.map (statement ok s)
  | .tick => (tick s).map fun e => (e, s)

/-- Nothing has SIGALRM as the process starts; others may have the other signal. -/
def system : System State Action Event where
  init s := ∃ dump, s = ⟨⟨.null, false⟩, dump, false, ⟨.null, false⟩, none⟩
  step := step

/-- The handler that others have installed for SIGALRM. -/
def noteInstalled (last : Option Sigaction) : Event → Option Sigaction
  | .installed action => some action
  | _ => last

def lastInstalled (es : List Event) : Option Sigaction := es.foldl noteInstalled none

@[simp] theorem lastInstalled_snoc (es : List Event) (e : Event) :
    lastInstalled (es ++ [e]) = noteInstalled (lastInstalled es) e := by
  simp [lastInstalled]

/-- The calls that have returned have decided it. -/
def Decided (es : List Event) (on : Bool) : Prop := ∀ b, .returned b ∈ es → b = on

/-- libFuzzer's handler is there, it takes the arguments that the wrapper hands on, and no
`sigaction` has failed. -/
def AlarmPresent (es : List Event) : Prop :=
  (∃ action, lastInstalled es = some action ∧ action.siginfo = true) ∧ .failed ∉ es

/-- What an event shows after the events before it. -/
def Explained (es : List Event) : Event → Prop
  | .ticked action => lastInstalled es = some action ∧ Decided es false
  | .wrapperTicked dump chain => dump = dumpAction ∧ lastInstalled es = some chain ∧
      chain.siginfo = true ∧ Decided es true
  | .returned on => Decided es on ∧ ((∀ b, .returned b ∉ es) → (on = true ↔ AlarmPresent es))
  | _ => True

/-- Who has SIGALRM. -/
inductive Held (es : List Event) (s : State) : Prop
  | nobody (hlast : lastInstalled es = none) (halarm : s.alarm = ⟨.null, false⟩)
  | theirs {f : ℕ} {siginfo : Bool} (hlast : lastInstalled es = some ⟨.foreign f, siginfo⟩)
      (halarm : s.alarm = ⟨.foreign f, siginfo⟩)
  | wrapper {f : ℕ} (hlast : lastInstalled es = some ⟨.foreign f, true⟩)
      (halarm : s.alarm = ⟨.fuzzAlarmHandler, true⟩) (hchain : s.chain = ⟨.foreign f, true⟩)
      (hdump : s.dump = dumpAction)

theorem Held.on {es : List Event} {s : State} (h : Held es s) (hon : s.on = true) :
    ∃ f, lastInstalled es = some ⟨.foreign f, true⟩ ∧ s.chain = ⟨.foreign f, true⟩ ∧
      s.dump = dumpAction := by
  cases h with
  | nobody hlast halarm | theirs hlast halarm => simp [State.on, halarm] at hon
  | wrapper hlast halarm hchain hdump => exact ⟨_, hlast, hchain, hdump⟩

/-- Where the wrapper is not, SIGALRM has what was installed last. -/
theorem Held.off {es : List Event} {s : State} (h : Held es s) (hon : s.on = false)
    (hnull : s.alarm.handler ≠ .null) :
    ∃ f siginfo, s.alarm = ⟨.foreign f, siginfo⟩ ∧ lastInstalled es = some s.alarm := by
  cases h with
  | nobody hlast halarm => simp [halarm] at hnull
  | theirs hlast halarm => exact ⟨_, _, halarm, by rw [hlast, halarm]⟩
  | wrapper hlast halarm => simp [State.on, halarm] at hon

/-- What `sigaction` finds is what the wrapper can hand a tick on to. -/
theorem Held.present_iff {es : List Event} {s : State} (h : Held es s) (hon : s.on = false) :
    (∃ action, lastInstalled es = some action ∧ action.siginfo = true) ↔
      s.alarm.siginfo = true ∧ s.alarm.handler ≠ .null := by
  cases h with
  | nobody hlast halarm => simp [hlast, halarm]
  | theirs hlast halarm => simp [hlast, halarm]
  | wrapper hlast halarm => simp [State.on, halarm] at hon

/-- Nothing has been decided, and nothing has failed. -/
structure First (es : List Event) (s : State) : Prop where
  off : s.on = false
  returned : ∀ b, .returned b ∉ es
  failed : .failed ∉ es

/-- What the call in progress has done. -/
inductive Place (es : List Event) (s : State) : Option Pc → Prop
  | before {pc : Option Pc} (hwrapped : s.wrapped = false) (hfirst : First es s)
      (hpc : pc = none ∨ pc = some .wrappedTest ∨ pc = some .storeWrapped) : Place es s pc
  | after {pc : Option Pc} (hwrapped : s.wrapped = true) (hreturned : ∃ b, .returned b ∈ es)
      (hdecided : Decided es s.on) (hpc : pc = none ∨ pc = some .wrappedTest) : Place es s pc
  | readAlarm (hwrapped : s.wrapped = true) (hfirst : First es s) : Place es s (some .readAlarm)
  | currentTest (hwrapped : s.wrapped = true) (hfirst : First es s) :
      Place es s (some (.currentTest s.alarm))
  | installDump (hwrapped : s.wrapped = true) (hfirst : First es s)
      (hsiginfo : s.alarm.siginfo = true) (hnull : s.alarm.handler ≠ .null) :
      Place es s (some (.installDump s.alarm))
  | storeChain (hwrapped : s.wrapped = true) (hfirst : First es s)
      (hsiginfo : s.alarm.siginfo = true) (hnull : s.alarm.handler ≠ .null)
      (hdump : s.dump = dumpAction) : Place es s (some (.storeChain s.alarm))
  | installWrapper (hwrapped : s.wrapped = true) (hfirst : First es s)
      (hsiginfo : s.alarm.siginfo = true) (hnull : s.alarm.handler ≠ .null)
      (hdump : s.dump = dumpAction) (hchain : s.chain = s.alarm) :
      Place es s (some (.installWrapper s.alarm))
  | restoreDump (hwrapped : s.wrapped = true) (hoff : s.on = false)
      (hreturned : ∀ b, .returned b ∉ es) (hfailed : .failed ∈ es) :
      Place es s (some .restoreDump)
  | ret (hwrapped : s.wrapped = true) (hexplained : Explained es (.returned s.on)) :
      Place es s (some .ret)

theorem First.decided {es : List Event} {s : State} (h : First es s) (on : Bool) : Decided es on :=
  fun b hb => absurd hb (h.returned b)

theorem Place.decided {es : List Event} {s : State} {pc : Option Pc} (h : Place es s pc) :
    Decided es s.on := by
  cases h with
  | before _ hfirst | readAlarm _ hfirst | currentTest _ hfirst | installDump _ hfirst
  | storeChain _ hfirst | installWrapper _ hfirst => exact hfirst.decided _
  | after _ _ hdecided => exact hdecided
  | restoreDump _ _ hreturned => exact fun b hb => absurd hb (hreturned b)
  | ret _ hexplained => exact hexplained.1

structure Inv (es : List Event) (s : State) : Prop where
  held : Held es s
  place : Place es s s.pc

/-- An event that neither decides anything nor fails. -/
def Event.quiet : Event → Bool
  | .failed | .returned _ => false
  | _ => true

theorem returned_mem {es : List Event} {e : Event} (he : e.quiet = true) (b : Bool) :
    .returned b ∈ es ++ [e] ↔ .returned b ∈ es := by
  cases e <;> simp [Event.quiet] at he ⊢

theorem failed_mem {es : List Event} {e : Event} (he : e.quiet = true) :
    .failed ∈ es ++ [e] ↔ .failed ∈ es := by
  cases e <;> simp [Event.quiet] at he ⊢

theorem First.snoc {es : List Event} {s t : State} {e : Event} (h : First es s)
    (he : e.quiet = true) (hon : t.on = false) : First (es ++ [e]) t := by
  refine ⟨hon, fun b => ?_, ?_⟩
  · rw [returned_mem he]
    exact h.returned b
  · rw [failed_mem he]
    exact h.failed

theorem Decided.snoc {es : List Event} {on : Bool} {e : Event} (h : Decided es on)
    (he : e.quiet = true) : Decided (es ++ [e]) on := by
  intro b hb
  exact h b ((returned_mem he b).mp hb)

theorem First.returns {es : List Event} {s : State} (h : First es s) {e : Event}
    (he : ∀ b, e ≠ .returned b) {on : Bool} (hon : on = true ↔ AlarmPresent (es ++ [e])) :
    Explained (es ++ [e]) (.returned on) := by
  refine ⟨fun b hb => ?_, fun _ => hon⟩
  rcases List.mem_append.mp hb with hb | hb
  · exact absurd hb (h.returned b)
  · exact absurd (List.mem_singleton.mp hb).symm (he b)

theorem not_present {es : List Event} (h : .failed ∈ es) {on : Bool} (hon : on = false) :
    on = true ↔ AlarmPresent es := by
  simp [hon, AlarmPresent, h]

/-- A step that leaves the wrapper out keeps who has SIGALRM. -/
theorem Held.keep {es : List Event} {s t : State} {e : Event} (h : Held es s)
    (he : ∀ action, e ≠ .installed action) (halarm : t.alarm = s.alarm)
    (hrest : s.on = false ∨ t.chain = s.chain ∧ t.dump = s.dump) : Held (es ++ [e]) t := by
  have hlast : lastInstalled (es ++ [e]) = lastInstalled es := by
    rw [lastInstalled_snoc]
    cases e <;> simp [noteInstalled] at he ⊢
  cases h with
  | nobody hnone hnull => exact .nobody (hlast.trans hnone) (halarm.trans hnull)
  | theirs hsome htheirs => exact .theirs (hlast.trans hsome) (halarm.trans htheirs)
  | wrapper hsome hwrapper hchain hdump =>
    rcases hrest with hoff | ⟨hc, hd⟩
    · simp [State.on, hwrapper] at hoff
    · exact .wrapper (hlast.trans hsome) (halarm.trans hwrapper) (hc.trans hchain) (hd.trans hdump)

/-- What a statement shows and keeps. -/
def Kept (es : List Event) (r : Event × State) : Prop := Explained es r.1 ∧ Inv (es ++ [r.1]) r.2

theorem kept_readAlarm {es : List Event} {s : State} (hheld : Held es s) (hwrapped : s.wrapped = true)
    (hfirst : First es s) (ok : Bool) : Kept es (statement ok s .readAlarm) := by
  cases ok with
  | false =>
    refine ⟨trivial, hheld.keep nofun rfl (.inl hfirst.off), .ret hwrapped ?_⟩
    exact hfirst.returns (e := .failed) nofun (not_present (by simp) hfirst.off)
  | true =>
    exact ⟨trivial, hheld.keep nofun rfl (.inl hfirst.off),
      .currentTest (s := s.goto (.currentTest s.alarm)) hwrapped (hfirst.snoc rfl hfirst.off)⟩

theorem kept_currentTest {es : List Event} {s : State} (hheld : Held es s)
    (hwrapped : s.wrapped = true) (hfirst : First es s) (ok : Bool) :
    Kept es (statement ok s (.currentTest s.alarm)) := by
  have hpresent := hheld.present_iff hfirst.off
  by_cases htest : s.alarm.siginfo = true ∧ s.alarm.handler ≠ .null
  · have hgoto : statement ok s (.currentTest s.alarm) =
        (.silent, s.goto (.installDump s.alarm)) := by
      simp [statement, htest.1, htest.2]
    rw [hgoto]
    exact ⟨trivial, hheld.keep nofun rfl (.inl hfirst.off),
      .installDump (s := s.goto (.installDump s.alarm)) hwrapped (hfirst.snoc rfl hfirst.off)
        htest.1 htest.2⟩
  · have hgoto : statement ok s (.currentTest s.alarm) = (.silent, s.goto .ret) := by
      have hcond : (!s.alarm.siginfo || decide (s.alarm.handler = .null)) = true := by
        by_cases hsiginfo : s.alarm.siginfo = true
        · simpa [hsiginfo] using htest
        · simp [hsiginfo]
      simp [statement, hcond]
    rw [hgoto]
    refine ⟨trivial, hheld.keep nofun rfl (.inl hfirst.off),
      .ret hwrapped (hfirst.returns (e := .silent) nofun ?_)⟩
    have hlast : lastInstalled (es ++ [.silent]) = lastInstalled es := by simp [noteInstalled]
    have hoff : (s.goto .ret).on = false := hfirst.off
    rw [AlarmPresent, hlast, hpresent, hoff]
    simp [htest]

theorem kept_installDump {es : List Event} {s : State} (hheld : Held es s)
    (hwrapped : s.wrapped = true) (hfirst : First es s) (hsiginfo : s.alarm.siginfo = true)
    (hnull : s.alarm.handler ≠ .null) (ok : Bool) :
    Kept es (statement ok s (.installDump s.alarm)) := by
  cases ok with
  | false =>
    refine ⟨trivial, hheld.keep nofun rfl (.inl hfirst.off), .ret hwrapped ?_⟩
    exact hfirst.returns (e := .failed) nofun (not_present (by simp) hfirst.off)
  | true =>
    exact ⟨trivial, hheld.keep nofun rfl (.inl hfirst.off),
      .storeChain (s := { s with dump := dumpAction }.goto (.storeChain s.alarm)) hwrapped
        (hfirst.snoc rfl hfirst.off) hsiginfo hnull rfl⟩

theorem kept_storeChain {es : List Event} {s : State} (hheld : Held es s)
    (hwrapped : s.wrapped = true) (hfirst : First es s) (hsiginfo : s.alarm.siginfo = true)
    (hnull : s.alarm.handler ≠ .null) (hdump : s.dump = dumpAction) (ok : Bool) :
    Kept es (statement ok s (.storeChain s.alarm)) :=
  ⟨trivial, hheld.keep nofun rfl (.inl hfirst.off),
    .installWrapper (s := { s with chain := s.alarm }.goto (.installWrapper s.alarm)) hwrapped
      (hfirst.snoc rfl hfirst.off) hsiginfo hnull hdump rfl⟩

theorem kept_installWrapper {es : List Event} {s : State} (hheld : Held es s)
    (hwrapped : s.wrapped = true) (hfirst : First es s) (hsiginfo : s.alarm.siginfo = true)
    (hnull : s.alarm.handler ≠ .null) (hdump : s.dump = dumpAction) (hchain : s.chain = s.alarm)
    (ok : Bool) : Kept es (statement ok s (.installWrapper s.alarm)) := by
  cases ok with
  | false =>
    refine ⟨trivial, hheld.keep nofun rfl (.inl hfirst.off), .restoreDump hwrapped hfirst.off ?_ ?_⟩
    · intro b hb
      exact hfirst.returned b (by simpa [statement] using hb)
    · simp [statement]
  | true =>
    obtain ⟨f, siginfo, halarm, hlast⟩ := hheld.off hfirst.off hnull
    obtain rfl : siginfo = true := by simpa [halarm] using hsiginfo
    have hsilent : lastInstalled (es ++ [.silent]) = some s.alarm := by
      simp [hlast, noteInstalled]
    refine ⟨trivial, .wrapper (f := f) (hsilent.trans (by rw [halarm])) ?_ (hchain.trans halarm)
      hdump, .ret hwrapped (hfirst.returns (e := .silent) nofun ?_)⟩
    · simp [statement, State.goto, halarm]
    · have hfailed : .failed ∉ es ++ [.silent] := (hfirst.snoc (t := s) rfl hfirst.off).failed
      exact ⟨fun _ => ⟨⟨_, hsilent, hsiginfo⟩, hfailed⟩, fun _ => rfl⟩

theorem kept_restoreDump {es : List Event} {s : State} (hheld : Held es s)
    (hwrapped : s.wrapped = true) (hoff : s.on = false) (hreturned : ∀ b, .returned b ∉ es)
    (hfailed : .failed ∈ es) (ok : Bool) : Kept es (statement ok s .restoreDump) := by
  have hreturns : ∀ e : Event, (∀ b, e ≠ .returned b) →
      Explained (es ++ [e]) (.returned s.on) := by
    intro e he
    refine ⟨fun b hb => ?_, fun _ => not_present (by simp [hfailed]) hoff⟩
    rcases List.mem_append.mp hb with hb | hb
    · exact absurd hb (hreturned b)
    · exact absurd (List.mem_singleton.mp hb).symm (he b)
  cases ok with
  | false => exact ⟨trivial, hheld.keep nofun rfl (.inl hoff), .ret hwrapped (hreturns _ nofun)⟩
  | true => exact ⟨trivial, hheld.keep nofun rfl (.inl hoff), .ret hwrapped (hreturns _ nofun)⟩

theorem kept_ret {es : List Event} {s : State} (hheld : Held es s) (hwrapped : s.wrapped = true)
    (hexplained : Explained es (.returned s.on)) (ok : Bool) : Kept es (statement ok s .ret) := by
  refine ⟨hexplained, hheld.keep nofun rfl (.inr ⟨rfl, rfl⟩), .after hwrapped ⟨s.on, ?_⟩ ?_ (.inl rfl)⟩
  · simp [statement]
  · intro b hb
    rcases List.mem_append.mp hb with hb | hb
    · exact hexplained.1 b hb
    · have hlast : b = s.on := by simpa [statement] using hb
      exact hlast

/-- A statement of the call, wherever it is. -/
theorem kept_statement {es : List Event} {s : State} {pc : Pc} (hheld : Held es s)
    (hplace : Place es s (some pc)) (ok : Bool) : Kept es (statement ok s pc) := by
  cases hplace with
  | before hwrapped hfirst hpc =>
    rcases hpc with hpc | hpc | hpc
    · cases hpc
    · obtain rfl : pc = .wrappedTest := by simpa using hpc
      have hgoto : statement ok s .wrappedTest = (.silent, s.goto .storeWrapped) := by
        simp [statement, hwrapped]
      rw [hgoto]
      exact ⟨trivial, hheld.keep nofun rfl (.inl hfirst.off),
        .before hwrapped (hfirst.snoc rfl hfirst.off) (.inr (.inr rfl))⟩
    · obtain rfl : pc = .storeWrapped := by simpa using hpc
      exact ⟨trivial, hheld.keep nofun rfl (.inl hfirst.off),
        .readAlarm rfl (hfirst.snoc rfl hfirst.off)⟩
  | after hwrapped hreturned hdecided hpc =>
    rcases hpc with hpc | hpc
    · cases hpc
    · obtain rfl : pc = .wrappedTest := by simpa using hpc
      have hgoto : statement ok s .wrappedTest = (.silent, s.goto .ret) := by
        simp [statement, hwrapped]
      rw [hgoto]
      refine ⟨trivial, hheld.keep nofun rfl (.inr ⟨rfl, rfl⟩), .ret hwrapped ⟨?_, fun hnone => ?_⟩⟩
      · exact hdecided.snoc rfl
      · obtain ⟨b, hb⟩ := hreturned
        exact absurd (List.mem_append_left _ hb) (hnone b)
  | readAlarm hwrapped hfirst => exact kept_readAlarm hheld hwrapped hfirst ok
  | currentTest hwrapped hfirst => exact kept_currentTest hheld hwrapped hfirst ok
  | installDump hwrapped hfirst hsiginfo hnull =>
    exact kept_installDump hheld hwrapped hfirst hsiginfo hnull ok
  | storeChain hwrapped hfirst hsiginfo hnull hdump =>
    exact kept_storeChain hheld hwrapped hfirst hsiginfo hnull hdump ok
  | installWrapper hwrapped hfirst hsiginfo hnull hdump hchain =>
    exact kept_installWrapper hheld hwrapped hfirst hsiginfo hnull hdump hchain ok
  | restoreDump hwrapped hoff hreturned hfailed =>
    exact kept_restoreDump hheld hwrapped hoff hreturned hfailed ok
  | ret hwrapped hexplained => exact kept_ret hheld hwrapped hexplained ok

/-- A step that changes nothing keeps the place of the call. -/
theorem Place.keep {es : List Event} {s : State} {pc : Option Pc} (h : Place es s pc) {e : Event}
    (he : e.quiet = true) (hlast : lastInstalled (es ++ [e]) = lastInstalled es) :
    Place (es ++ [e]) s pc := by
  cases h with
  | before hwrapped hfirst hpc => exact .before hwrapped (hfirst.snoc he hfirst.off) hpc
  | after hwrapped hreturned hdecided hpc =>
    obtain ⟨b, hb⟩ := hreturned
    exact .after hwrapped ⟨b, List.mem_append_left _ hb⟩ (hdecided.snoc he) hpc
  | readAlarm hwrapped hfirst => exact .readAlarm hwrapped (hfirst.snoc he hfirst.off)
  | currentTest hwrapped hfirst => exact .currentTest hwrapped (hfirst.snoc he hfirst.off)
  | installDump hwrapped hfirst hsiginfo hnull =>
    exact .installDump hwrapped (hfirst.snoc he hfirst.off) hsiginfo hnull
  | storeChain hwrapped hfirst hsiginfo hnull hdump =>
    exact .storeChain hwrapped (hfirst.snoc he hfirst.off) hsiginfo hnull hdump
  | installWrapper hwrapped hfirst hsiginfo hnull hdump hchain =>
    exact .installWrapper hwrapped (hfirst.snoc he hfirst.off) hsiginfo hnull hdump hchain
  | restoreDump hwrapped hoff hreturned hfailed =>
    exact .restoreDump hwrapped hoff (fun b => by rw [returned_mem he]; exact hreturned b)
      (List.mem_append_left _ hfailed)
  | ret hwrapped hexplained =>
    refine .ret hwrapped ⟨hexplained.1.snoc he, fun hnone => ?_⟩
    rw [AlarmPresent, hlast, failed_mem he]
    exact hexplained.2 fun b hb => hnone b (List.mem_append_left _ hb)

theorem tick_explained {es : List Event} {s : State} {e : Event} (hi : Inv es s)
    (he : tick s = some e) :
    Explained es e ∧ e.quiet = true ∧ (∀ action, e ≠ .installed action) ∧
      lastInstalled (es ++ [e]) = lastInstalled es := by
  have hdecided := hi.place.decided
  by_cases hon : s.on = true
  · obtain ⟨f, hlast, hchain, hdump⟩ := hi.held.on hon
    have hhandler : s.alarm.handler = .fuzzAlarmHandler := by simpa [State.on] using hon
    obtain rfl : .wrapperTicked s.dump s.chain = e := by simpa [tick, hhandler] using he
    rw [hon] at hdecided
    exact ⟨⟨hdump, by rw [hlast, hchain], by rw [hchain], hdecided⟩, rfl, nofun,
      by simp [noteInstalled]⟩
  · have hoff : s.on = false := by simpa using hon
    have hnull : s.alarm.handler ≠ .null := by
      intro hnull
      simp [tick, hnull] at he
    obtain ⟨f, siginfo, halarm, hlast⟩ := hi.held.off hoff hnull
    obtain rfl : .ticked s.alarm = e := by simpa [tick, halarm] using he
    rw [hoff] at hdecided
    exact ⟨⟨hlast, hdecided⟩, rfl, nofun, by simp [noteInstalled]⟩

theorem kept_step {es : List Event} {s t : State} {a : Action} {e : Event} (hi : Inv es s)
    (hs : step s a = some (e, t)) : Kept es (e, t) := by
  cases a with
  | install f siginfo =>
    obtain ⟨⟨hpc, hnull⟩, rfl, rfl⟩ : (s.pc = none ∧ s.alarm.handler = .null) ∧
        .installed ⟨.foreign f, siginfo⟩ = e ∧
        { s with alarm := ⟨.foreign f, siginfo⟩ } = t := by
      simpa [step] using hs
    refine ⟨trivial, .theirs (by simp [noteInstalled]) rfl, ?_⟩
    have hplace := hi.place
    rw [hpc] at hplace
    have hoff : s.on = false := by simp [State.on, hnull]
    cases hplace with
    | before hwrapped hfirst => exact .before hwrapped (hfirst.snoc rfl rfl) (.inl hpc)
    | after hwrapped hreturned hdecided =>
      obtain ⟨b, hb⟩ := hreturned
      rw [hoff] at hdecided
      exact .after hwrapped ⟨b, List.mem_append_left _ hb⟩ (hdecided.snoc rfl) (.inl hpc)
  | call =>
    obtain ⟨hpc, rfl, rfl⟩ : s.pc = none ∧ .silent = e ∧ s.goto .wrappedTest = t := by
      simpa [step] using hs
    refine ⟨trivial, hi.held.keep nofun rfl (.inr ⟨rfl, rfl⟩), ?_⟩
    have hplace := hi.place
    rw [hpc] at hplace
    cases hplace with
    | before hwrapped hfirst =>
      exact .before hwrapped (hfirst.snoc rfl hfirst.off) (.inr (.inl rfl))
    | after hwrapped hreturned hdecided =>
      obtain ⟨b, hb⟩ := hreturned
      exact .after hwrapped ⟨b, List.mem_append_left _ hb⟩ (hdecided.snoc rfl) (.inr rfl)
  | statement ok =>
    obtain ⟨pc, hpc, hstatement⟩ : ∃ pc, s.pc = some pc ∧ statement ok s pc = (e, t) := by
      simpa [step] using hs
    rw [← hstatement]
    exact kept_statement hi.held (hpc ▸ hi.place) ok
  | tick =>
    obtain ⟨htick, rfl⟩ : tick s = some e ∧ s = t := by simpa [step] using hs
    obtain ⟨hexplained, hquiet, hinstalled, hlast⟩ := tick_explained hi htick
    exact ⟨hexplained, hi.held.keep hinstalled rfl (.inr ⟨rfl, rfl⟩), hi.place.keep hquiet hlast⟩

theorem Run.inv {es : List Event} {s : State} (h : system.Run es s) : Inv es s := by
  refine h.induct (I := Inv) ?_ fun es s a e t _ hi hs => (kept_step hi hs).2
  rintro s ⟨dump, rfl⟩
  exact ⟨.nobody rfl rfl, .before rfl ⟨rfl, nofun, nofun⟩ (.inl rfl)⟩

/-- Wherever a tick lands it runs the handler that libFuzzer has installed, or the wrapper, and that
only once the dump signal has its handler and libFuzzer's is in `chain`. The first call decides
which, and the wrapper goes in exactly if it finds the alarm and every `sigaction` succeeds. -/
theorem tick_finds_handler {pre post : List Event} {e : Event} {s : State}
    (h : system.Run (pre ++ e :: post) s) : Explained pre e := by
  obtain ⟨t, a, u, hrun, hs, -⟩ := h.split
  exact (kept_step (Run.inv hrun) hs).1

/-- libFuzzer starts, a tick lands before the wrapper is in and another one afterwards. -/
def startupSchedule : List Action :=
  [.install 0 true, .call] ++ .replicate 5 (.statement true) ++ [.tick] ++
    .replicate 3 (.statement true) ++ [.tick]

def startupTrace : List Event :=
  [.installed ⟨.foreign 0, true⟩] ++ .replicate 6 .silent ++ [.ticked ⟨.foreign 0, true⟩] ++
    .replicate 2 .silent ++ [.returned true, .wrapperTicked dumpAction ⟨.foreign 0, true⟩]

theorem tick_finds_handler_startup :
    Explained (startupTrace.take 11) (.wrapperTicked dumpAction ⟨.foreign 0, true⟩) ∧
    Explained (startupTrace.take 10) (.returned true) := by
  obtain ⟨s, h, -⟩ : ∃ s, system.Run startupTrace s ∧ s.on = true :=
    System.Run.of_exec (S := system) State.on
      ⟨⟨.null, false⟩, ⟨.null, false⟩, false, ⟨.null, false⟩, none⟩ startupSchedule
      ⟨_, rfl⟩ (by decide)
  have htick : system.Run (startupTrace.take 11 ++
      .wrapperTicked dumpAction ⟨.foreign 0, true⟩ :: []) s := h
  have hreturned : system.Run (startupTrace.take 10 ++
      .returned true :: [.wrapperTicked dumpAction ⟨.foreign 0, true⟩]) s := h
  exact ⟨tick_finds_handler htick, tick_finds_handler hreturned⟩

end ROssFuzz.AlarmWrap
