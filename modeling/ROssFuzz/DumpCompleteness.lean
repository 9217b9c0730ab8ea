import ROssFuzz.DumpSoundness

/-!
# A timeout means a dump

A tick is handed on without a hold when the whole seconds since `armed` are two or more
below the timeout. `armed` was read before libFuzzer's clock for the input started, so
one more second leaves libFuzzer's age below the timeout as well. A tick that held has
asked for a dump by the time it is handed on: the request it finds made is this input's,
either because libFuzzer exits after the first one or because the counter has not come
round.
-/

namespace ROssFuzz.TimeoutAlarm
open RThreadHandoff TransitionRuns

variable {J : Type} {cfg : Config}

/-- libFuzzer's clock for each input begins at or after the last `armed` reading. -/
def ClockAfterArmed (es : List (Event J)) : Prop :=
  ∀ n j armed clock, .called n j (.input armed clock) ∈ es → armed ≤ clock

/-- Every tick passed on without a hold is passed on within a second of its reading. -/
def Prompt (es : List (Event J)) : Prop :=
  ∀ n r t reported, .chained n (.young r) t reported ∈ es → t.nanos ≤ r.nanos + 1000000000

/-- No code but libFuzzer's inputs enters the call once the alarm is wrapped. -/
def InputsOnly (es : List (Event J)) : Prop := ∀ n j, .called n j (.other true) ∉ es

theorem moves_chained {s s' : State J} {n : ℕ} {route : Route} {t : Timespec} {reported : Bool}
    (hs : Moves cfg s (.chained n route t reported) s') :
    n = s.handoff.calls ∧ s.tick = some (.chain route) ∧ t = s.now ∧
      reported = reports cfg s := by
  obtain ⟨killFails, letPass, pc, ht, he, -⟩ := moves_ofAlarm hs rfl
  cases pc <;> simp only [alarmStep, State.goto] at he <;> (repeat' split at he) <;> simp_all

/-- One second more, and libFuzzer's age is still below the timeout. -/
theorem young_of_prompt {armed clock r t : Timespec} {timeout : ℤ} (hclock : armed ≤ clock)
    (hyoung : fuzzSecondsSince r armed < timeout - 1)
    (hprompt : t.nanos ≤ r.nanos + 1000000000) : fuzzSecondsSince t clock < timeout := by
  rw [fuzzSecondsSince_eq_elapsed] at hyoung ⊢
  have hle := Timespec.elapsed_le_succ hprompt hclock
  omega

private theorem Run.young {pre post : List (Event J)} {n : ℕ} {r t : Timespec} {reported : Bool}
    {s : State J} (h : (system J cfg).Run (pre ++ .chained n (.young r) t reported :: post) s)
    (hprompt : t.nanos ≤ r.nanos + 1000000000) :
    (∀ j armed clock, armed ≤ clock → .called n j (.input armed clock) ∈ pre →
      fuzzSecondsSince t clock < cfg.timeout) ∧
    (ClockAfterArmed pre → reported = false) := by
  obtain ⟨u, a, u', hpre, hstep, -⟩ := h.split
  obtain ⟨rfl, ht, rfl, rfl⟩ := moves_chained (step_moves hstep).2
  have hclocks := Run.clocks hpre
  have hyoung := ((hclocks.tick _ ht).2.2 r rfl).2
  refine ⟨?_, ?_⟩
  · intro j armed clock hle hj
    have hcaller := Run.caller_of_engaged hpre ht rfl hj
    cases hu : u.unit with
    | none => simp [State.caller, hu] at hcaller
    | some start =>
      obtain ⟨rfl, rfl⟩ : u.alarm.armed = armed ∧ start = clock := by
        simpa [State.caller, hu] using hcaller
      exact young_of_prompt hle hyoung hprompt
  · intro hclock
    have hmw := ((Run.inv hpre).tick _ ht rfl).1
    obtain ⟨j, hj⟩ := hclocks.caller (fun hm => by simp [hm, MainPc.awaiting] at hmw)
      (fun hm => by simp [hm, MainPc.awaiting] at hmw)
    cases hu : u.unit with
    | none => simp [reports, hu]
    | some start =>
      simp only [State.caller, hu] at hj
      have hlt := young_of_prompt (hclock _ _ _ _ hj) hyoung hprompt
      simpa [reports, hu] using hlt

/-- Where libFuzzer does not let a timeout pass: nothing has been asked for, or the tick
that asked is still on its way. -/
structure FirstRequest (es : List (Event J)) (s : State J) : Prop where
  first : s.exited = true ∨ s.alarm.requested = 0 ∨
    ∃ pc, s.tick = some pc ∧ pc.asked = true
  asked : ∀ pc, s.tick = some pc → pc.asked = true → ∃ k, .requested s.handoff.calls k ∈ es

private theorem firstRequest_alarm {es : List (Event J)} {s : State J} {killFails letPass : Bool}
    {pc : TickPc} (hr : (system J cfg).Run es s) (hf : FirstRequest es s)
    (hx : s.exited = false) (honly : InputsOnly es) (ht : s.tick = some pc)
    (hl : letPass = false) :
    FirstRequest (es ++ [(alarmStep cfg killFails letPass s pc).1])
      (alarmStep cfg killFails letPass s pc).2 := by
  have hfirst : pc.asked = false → s.alarm.requested = 0 := by
    intro hna
    rcases hf.first with h | h | ⟨pc', hpc', h⟩
    · simp [h] at hx
    · exact h
    · simp_all
  have hasked := hf.asked pc ht
  cases pc with
  | requestedTest k =>
    have hk := (Run.number_of_tick hr ht rfl).1
    have hz := hfirst rfl
    have hne : s.alarm.requested ≠ k := by omega
    simp only [alarmStep, hne, ne_eq, not_false_eq_true, if_true]
    exact ⟨.inr (.inl hz), by simp [State.goto, TickPc.asked]⟩
  | storeRequested k =>
    refine ⟨.inr (.inr ⟨_, rfl, rfl⟩), fun _ _ _ => ⟨k, by simp [alarmStep]⟩⟩
  | chain route =>
    refine ⟨?_, by simp [alarmStep]⟩
    cases route with
    | held k =>
      -- libFuzzer reports, and does not let it pass
      left
      have hent := (Run.inv hr).tick _ ht rfl
      have hmw := hent.1
      obtain ⟨j, hj⟩ := (Run.clocks hr).caller (fun hm => by simp [hm, MainPc.awaiting] at hmw)
        (fun hm => by simp [hm, MainPc.awaiting] at hmw)
      cases hu : s.unit with
      | none =>
        have hinst := (Run.clocks hr).installed (by simp [ht])
        simp only [State.caller, hu, hinst] at hj
        exact absurd hj (honly _ _)
      | some u =>
        have hlate := Run.unit_overdue hr ht rfl hu
        simp [alarmStep, reports, hu, hlate, hl]
    | idle | young r => exact .inr (.inl (hfirst rfl))
  | writeHeader k | killRThread k | storeDone k | doneTest k i | stillRunningTest k i
  | waitNanosleep k i =>
    obtain ⟨k', hk'⟩ := hasked rfl
    simp only [alarmStep, State.goto]
    (repeat' split) <;>
      exact ⟨.inr (.inr ⟨_, rfl, rfl⟩), fun _ _ _ => ⟨k', List.mem_append_left _ hk'⟩⟩
  | _ =>
    have hz := hfirst rfl
    simp only [alarmStep, State.goto]
    (repeat' split) <;> exact ⟨.inr (.inl hz), by simp [TickPc.asked]⟩

/-- What leaves the tick and the request alone. -/
private theorem FirstRequest.keep {es : List (Event J)} {s s' : State J} (hf : FirstRequest es s)
    (e : Event J) (hx : s'.exited = s.exited)
    (hreq : s'.alarm.requested = s.alarm.requested)
    (htick : s'.tick = s.tick ∧ s'.handoff.calls = s.handoff.calls ∨
      s.tick = none ∧ ∀ pc, s'.tick = some pc → pc.asked = false) :
    FirstRequest (es ++ [e]) s' := by
  refine ⟨?_, ?_⟩
  · rw [hx, hreq]
    rcases hf.first with h | h | ⟨pc, hpc, h⟩
    · exact .inl h
    · exact .inr (.inl h)
    · rcases htick with ⟨ht, -⟩ | ⟨ht, -⟩
      · exact .inr (.inr ⟨pc, ht ▸ hpc, h⟩)
      · simp [ht] at hpc
  · intro pc hpc ha
    rcases htick with ⟨ht, hcalls⟩ | ⟨-, hna⟩
    · obtain ⟨k, hk⟩ := hf.asked pc (ht ▸ hpc) ha
      exact ⟨k, by simp [hcalls, hk]⟩
    · simp [hna pc hpc] at ha

theorem Run.firstRequest {es : List (Event J)} {s : State J} (hstrict : cfg.lenient = false)
    (h : (system J cfg).Run es s) (honly : InputsOnly es) : FirstRequest es s := by
  refine h.induct (I := fun es s => InputsOnly es → FirstRequest es s) ?_ ?_ honly
  · rintro s ⟨now, rfl⟩ -
    exact ⟨.inr (.inl rfl), by simp [State.initial]⟩
  · intro es s a e s' hr hf hs honly
    have honly' : InputsOnly es := fun n j hj => honly n j (List.mem_append_left _ hj)
    obtain ⟨hx, hmoves⟩ := step_moves hs
    have hf := hf honly'
    cases hmoves with
    | alarm killFails letPass pc hl ht =>
      exact firstRequest_alarm hr hf hx honly' ht (by simpa [hstrict] using hl)
    | main h ht hh => exact hf.keep _ rfl (by simp) (.inr ⟨ht, by simp [ht]⟩)
    | rThread h hd hh => exact hf.keep _ rfl (by simp) (.inl ⟨rfl, (rStep_calls hh).1⟩)
    | call j hm ht | testOneInput j hm ht | fork hm ht =>
      exact hf.keep _ rfl rfl (.inr ⟨ht, by simp [ht]⟩)
    | tick ht hw => exact hf.keep _ rfl rfl (.inr ⟨ht, by simp [TickPc.asked]⟩)
    | dump pc hd => cases pc <;> exact hf.keep _ rfl rfl (.inl ⟨rfl, rfl⟩)
    | wakeMain h hh =>
      exact hf.keep _ rfl rfl (.inl ⟨rfl, by simp [(Handoff.wakeMain_eq hh).2]⟩)
    | wakeRThread h hh =>
      exact hf.keep _ rfl rfl (.inl ⟨rfl, by simp [(Handoff.wakeR_eq hh).2]⟩)
    | advance | label | deliverDump => exact hf.keep _ rfl rfl (.inl ⟨rfl, rfl⟩)

/-- A tick passed on without a hold and within a second leaves libFuzzer's whole-second
age below the timeout. So when every such tick is that prompt, each timeout reported at
a tick that found the input running comes after a dump request for that input. The
input's number is its own where libFuzzer exits on a timeout, and where it may let one
pass, until the counter comes round. -/
theorem dump_complete {es : List (Event J)} {s : State J} (h : (system J cfg).Run es s)
    (hclock : ClockAfterArmed es) :
    (∀ pre post n r t reported, es = pre ++ .chained n (.young r) t reported :: post →
      t.nanos ≤ r.nanos + 1000000000 →
      reported = false ∧ ∀ j armed clock, .called n j (.input armed clock) ∈ pre →
        fuzzSecondsSince t clock < cfg.timeout) ∧
    (Prompt es → (cfg.lenient = false ∧ InputsOnly es ∨ s.handoff.calls < 2 ^ 32) →
      ∀ pre post n route t, es = pre ++ .chained n route t true :: post → route ≠ .idle →
        ∃ k, .requested n k ∈ pre) := by
  refine ⟨?_, ?_⟩
  · rintro pre post n r t reported rfl hprompt
    obtain ⟨hage, hrep⟩ := Run.young h hprompt
    have hclock' : ClockAfterArmed pre := fun n j a c hj =>
      hclock n j a c (List.mem_append_left _ hj)
    exact ⟨hrep hclock', fun j a c hj => hage j a c (hclock' n j a c hj) hj⟩
  · rintro hprompt hcount pre post n route t rfl hroute
    cases route with
    | idle => exact absurd rfl hroute
    | young r =>
      have hclock' : ClockAfterArmed pre := fun n j a c hj =>
        hclock n j a c (List.mem_append_left _ hj)
      have hrep := (Run.young h (hprompt n r t true (by simp))).2 hclock'
      simp at hrep
    | held k =>
      obtain ⟨u, a, u', hpre, hstep, hpost⟩ := h.split
      have hmoves := (step_moves hstep).2
      obtain ⟨rfl, ht, -, -⟩ := moves_chained hmoves
      rcases hcount with ⟨hstrict, honly⟩ | hlt
      · have honly' : InputsOnly pre := fun n j hj => honly n j (List.mem_append_left _ hj)
        exact (Run.firstRequest hstrict hpre honly').asked _ ht rfl
      · have hle : u.handoff.calls ≤ s.handoff.calls :=
          (moves_calls hmoves).trans (steps_calls hpost)
        exact ⟨_, (Run.requests hpre (lt_of_le_of_lt hle hlt)).asked _ ht rfl⟩

/-- A tick in the second second of an input, and one in its fourth. -/
def twoTicksSchedule : List (Action Unit) := List.flatten
  [[.testOneInput ()], .replicate 11 .main, .replicate 8 .rThread,
    [.advance (.half 1), .tick], .replicate 3 (.alarm false false),
    [.advance (.second 2), .alarm false false, .advance (.second 4), .tick],
    .replicate 10 (.alarm false false), [.deliverDump], .replicate 4 .dump,
    .replicate 2 (.alarm false false)]

def twoTicksTrace : List (Event Unit) := List.flatten
  [[.called 1 () (.input .zero (.half 0))], .replicate 11 (.silent .main),
    .replicate 4 (.silent .rThread),
    [.started 1 (.half 0), .runningSet 1, .executed 1 (), .silent .rThread,
      .silent .clock, .ticked true, .silent .alarm, .silent .alarm, .silent .alarm,
      .silent .clock, .chained 1 (.young (.half 1)) (.second 2) false,
      .silent .clock, .ticked true, .silent .alarm, .silent .alarm, .silent .alarm,
      .ageRead 1 (.second 4), .sawRunning 1, .silent .alarm, .silent .alarm,
      .requested 1 1, .silent .alarm, .silent .alarm, .silent .dump, .silent .dump,
      .silent .dump, .dumpPrinted 0 1 none, .dumpDone 0 1, .doneSeen 1]]

theorem dump_complete_twoTicks : ∃ k, .requested 1 k ∈ twoTicksTrace := by
  obtain ⟨s, h, -⟩ : ∃ s, (system Unit threeSeconds).Run
      (twoTicksTrace ++ .chained 1 (.held 1) (.second 4) true :: []) s ∧
      s.handoff.calls = 1 :=
    run_of_schedule (.half 0) twoTicksSchedule (by decide +kernel)
  have hclock : ClockAfterArmed
      (twoTicksTrace ++ .chained 1 (.held 1) (.second 4) true :: []) := by
    intro n j armed clock hj
    obtain ⟨-, rfl, rfl⟩ : n = 1 ∧ armed = .zero ∧ clock = .half 0 := by
      simpa [twoTicksTrace] using hj
    decide
  have hprompt : Prompt
      (twoTicksTrace ++ .chained 1 (.held 1) (.second 4) true :: []) := by
    intro n r t reported hj
    obtain ⟨-, rfl, rfl, -⟩ : n = 1 ∧ r = .half 1 ∧ t = .second 2 ∧
        reported = false := by
      simpa [twoTicksTrace] using hj
    decide
  have honly : InputsOnly
      (twoTicksTrace ++ .chained 1 (.held 1) (.second 4) true :: []) := by
    intro n j hj
    simp [twoTicksTrace] at hj
  exact (dump_complete h hclock).2 hprompt (.inl ⟨rfl, honly⟩) twoTicksTrace [] 1 (.held 1) _ rfl
    (by simp)

end ROssFuzz.TimeoutAlarm
