import ROssFuzz.DumpRequests

/-!
# A dump means a timeout

A request is made by a tick that has seen the input running past its own deadline, and
from there every statement of the handler leads to libFuzzer's handler. The longest way
is the wait for the dump, which is bounded; libFuzzer's clock started before the input's
own, so it shows the timeout too.
-/

namespace ROssFuzz.TimeoutAlarm
open RThreadHandoff TransitionRuns

variable {J : Type} {cfg : Config}

/-- A statement of `fuzz_alarm_handler`. -/
def Event.ofAlarm : Event J → Bool
  | .silent .alarm | .dropped _ | .ageRead _ _ | .sawRunning _ | .sawFinished _ | .requested _ _
  | .killFailed _ | .doneSeen _ | .chained _ _ _ _ => true
  | _ => false

theorem Event.ofAlarm_iff (e : Event J) : e.ofAlarm = true ↔ e.actor = .alarm := by
  cases e with
  | silent actor => cases actor <;> simp [Event.ofAlarm, Event.actor]
  | _ => simp [Event.ofAlarm, Event.actor]

/-- A tick begins or ends. -/
def Event.tickEdge : Event J → Bool
  | .ticked _ | .dropped _ | .sawFinished _ | .chained _ _ _ _ => true
  | _ => false

/-- The statements left between the request and the chained handler, at most. -/
def TickPc.remaining : TickPc → ℕ
  | .writeHeader _ => 15005
  | .killRThread _ => 15004
  | .storeDone _ => 15003
  | .doneTest _ i => 3 * (5000 - i) + 2
  | .stillRunningTest _ i => 3 * (5000 - i) + 1
  | .waitNanosleep _ i => 3 * (5000 - i)
  | _ => 1

/-- The loop's counter is below its bound inside the loop. -/
def TickPc.Counted (pc : TickPc) : Prop :=
  ∀ k i, pc = .stillRunningTest k i ∨ pc = .waitNanosleep k i → i < 5000

/-- The `n`-th call's tick has asked for a dump with the number `k`, and is at most
`bound` statements from libFuzzer's handler, which will report what it is given. -/
structure Asked (cfg : Config) (n k : ℕ) (reported : Bool) (s : State J) (bound : ℕ) : Prop where
  alive : s.exited = false
  call : s.handoff.calls = n
  tick : ∃ pc, s.tick = some pc ∧ pc.asked = true ∧ pc.number = some k ∧ pc.Counted ∧
    pc.remaining ≤ bound
  report : reports cfg s = reported
  late : ∀ u, s.unit = some u → cfg.timeout ≤ fuzzSecondsSince s.now u

/-- What leaves the tick alone leaves it where it was, and the timeout past. -/
private theorem Asked.keep {n k bound : ℕ} {reported : Bool} {s s' : State J}
    (h : Asked cfg n k reported s bound) (hx : s'.exited = s.exited)
    (hcalls : s'.handoff.calls = s.handoff.calls) (htick : s'.tick = s.tick)
    (hnow : s.now ≤ s'.now) (hunit : s'.unit = s.unit) : Asked cfg n k reported s' bound := by
  obtain ⟨hal, hcall, ht, hrep, hlate⟩ := h
  have hlate' : ∀ u, s'.unit = some u → cfg.timeout ≤ fuzzSecondsSince s'.now u := by
    intro u hu
    exact (hlate u (hunit ▸ hu)).trans (fuzzSecondsSince_mono hnow (Timespec.le_refl _))
  refine ⟨hx ▸ hal, hcalls ▸ hcall, htick ▸ ht, ?_, hlate'⟩
  cases hu : s.unit with
  | none => simpa [reports, hunit, hu] using hrep
  | some u =>
    have hl := hlate u hu
    have hl' := hlate' u (hunit ▸ hu)
    simp_all [reports]

/-- On to the next statement, which has one fewer after it. -/
private theorem Asked.goto {n k bound : ℕ} {reported : Bool} {s : State J}
    (h : Asked cfg n k reported s bound) {alarm : Alarm} {pending : ℕ} {pc : TickPc}
    (hask : pc.asked = true) (hnum : pc.number = some k) (hcnt : pc.Counted)
    (hrem : pc.remaining + 1 ≤ bound) :
    ∃ bound', bound = bound' + 1 ∧ Asked cfg n k reported
      { s with alarm := alarm, pending := pending, tick := some pc } bound' := by
  obtain ⟨hal, hcall, -, hrep, hlate⟩ := h
  exact ⟨bound - 1, by omega, hal, hcall, ⟨pc, rfl, hask, hnum, hcnt, by omega⟩, hrep, hlate⟩

/-- One statement of the handler: it arrives, or has one statement fewer to go. -/
private theorem asked_alarm {n k bound : ℕ} {reported : Bool} {s : State J} {pc : TickPc}
    (killFails letPass : Bool) (h : Asked cfg n k reported s bound) (ht : s.tick = some pc) :
    (∃ t, (alarmStep cfg killFails letPass s pc).1 = .chained n (.held k) t reported) ∨
      ((alarmStep cfg killFails letPass s pc).1.tickEdge = false ∧
        (alarmStep cfg killFails letPass s pc).1.ofAlarm = true ∧
        ∃ bound', bound = bound' + 1 ∧
          Asked cfg n k reported (alarmStep cfg killFails letPass s pc).2 bound') := by
  obtain ⟨pc', ht', hask, hnum, hcnt, hrem⟩ := h.tick
  obtain rfl : pc = pc' := by simpa [ht] using ht'
  cases pc with
  | chain route =>
    cases route with
    | held k' =>
      obtain rfl : k' = k := by simpa using hnum
      exact .inl ⟨s.now, by simp [alarmStep, h.call, h.report]⟩
    | idle | young r => simp [TickPc.asked] at hask
  | writeHeader k' | killRThread k' | storeDone k' =>
    obtain rfl : k' = k := by simpa using hnum
    right
    simp only [alarmStep, State.goto, TickPc.remaining] at hrem ⊢
    (repeat' split) <;> refine ⟨rfl, rfl, h.goto rfl rfl ?_ ?_⟩ <;>
      simp [TickPc.Counted, TickPc.remaining] <;> omega
  | doneTest k' i =>
    obtain rfl : k' = k := by simpa using hnum
    right
    simp only [alarmStep, State.goto, TickPc.remaining] at hrem ⊢
    (repeat' split) <;> refine ⟨rfl, rfl, h.goto rfl rfl ?_ ?_⟩ <;>
      simp [TickPc.Counted, TickPc.remaining] <;> omega
  | stillRunningTest k' i | waitNanosleep k' i =>
    obtain rfl : k' = k := by simpa using hnum
    have hi : i < 5000 := hcnt k' i (by simp)
    right
    simp only [alarmStep, State.goto, TickPc.remaining] at hrem ⊢
    (repeat' split) <;> refine ⟨rfl, rfl, h.goto rfl rfl ?_ ?_⟩ <;>
      simp [TickPc.Counted, TickPc.remaining] <;> omega
  | _ => simp [TickPc.asked] at hask

theorem rEvent_ofAlarm (h : Handoff J) (now : Timespec) :
    (rEvent h now).ofAlarm = false ∧ (rEvent h now).tickEdge = false := by
  cases hr : h.r <;> simp only [rEvent, hr] <;> (try split) <;> exact ⟨rfl, rfl⟩

private theorem asked_step {n k : ℕ} {reported : Bool} (s : State J) (bound : ℕ) (a : Action J)
    (e : Event J) (t : State J) (h : Asked cfg n k reported s bound)
    (hs : (system J cfg).step s a = some (e, t)) :
    (∃ now, e = .chained n (.held k) now reported) ∨
      (e.tickEdge = false ∧
        (if e.ofAlarm then ∃ bound', bound = bound' + 1 ∧ Asked cfg n k reported t bound'
          else Asked cfg n k reported t bound)) := by
  obtain ⟨pc, htick, -⟩ := h.tick
  have hsome : s.tick ≠ none := by simp [htick]
  have hmoves := (step_moves hs).2
  cases hmoves with
  | alarm killFails letPass pc ht =>
    rcases asked_alarm killFails letPass h ‹_› with hg | ⟨hq, ho, hb⟩
    · exact .inl hg
    · exact .inr ⟨hq, by simpa only [ho, if_true] using hb⟩
  | rThread h' hd hh =>
    obtain ⟨ho, hq⟩ := rEvent_ofAlarm s.handoff s.now
    refine .inr ⟨hq, ?_⟩
    simp only [ho]
    exact h.keep rfl (rStep_calls hh).1 rfl (Timespec.le_refl _) rfl
  | advance t hle => exact .inr ⟨rfl, h.keep rfl rfl rfl hle rfl⟩
  | dump pc hd =>
    cases pc <;> exact .inr ⟨rfl, h.keep rfl rfl rfl (Timespec.le_refl _) rfl⟩
  | wakeMain h' hh =>
    exact .inr ⟨rfl, h.keep rfl (by simp [(Handoff.wakeMain_eq hh).2]) rfl (Timespec.le_refl _) rfl⟩
  | wakeRThread h' hh =>
    exact .inr ⟨rfl, h.keep rfl (by simp [(Handoff.wakeR_eq hh).2]) rfl (Timespec.le_refl _) rfl⟩
  | label | deliverDump => exact .inr ⟨rfl, h.keep rfl rfl rfl (Timespec.le_refl _) rfl⟩
  | main | call | testOneInput | tick | fork => exact absurd ‹s.tick = none› hsome

/-- An event of the handler's is a statement of the handler's. -/
theorem moves_ofAlarm {s s' : State J} {e : Event J} (hs : Moves cfg s e s')
    (he : e.ofAlarm = true) : ∃ killFails letPass pc, s.tick = some pc ∧
      e = (alarmStep cfg killFails letPass s pc).1 ∧
      s' = (alarmStep cfg killFails letPass s pc).2 := by
  rw [Event.ofAlarm_iff] at he
  cases hs with
  | alarm killFails letPass pc hl ht => exact ⟨killFails, letPass, pc, ht, rfl, rfl⟩
  | main | rThread | dump => simp at he
  | _ => cases he

/-- The only statement that makes a request. -/
theorem moves_requested {s s' : State J} {n k : ℕ} (hs : Moves cfg s (.requested n k) s') :
    n = s.handoff.calls ∧ s.tick = some (.storeRequested k) ∧ s' = { s with
      alarm := { s.alarm with requested := k }
      tick := some (.writeHeader k) } := by
  obtain ⟨killFails, letPass, pc, ht, he, rfl⟩ := moves_ofAlarm hs rfl
  cases pc <;> simp only [alarmStep, State.goto] at he ⊢ <;> (repeat' split at he) <;> simp_all

/-- libFuzzer's clock for the input shows the timeout as soon as the input's own does. -/
theorem Run.unit_overdue {es : List (Event J)} {s : State J} {pc : TickPc} {u : Timespec}
    (h : (system J cfg).Run es s) (ht : s.tick = some pc) (hp : pc.overdue = true)
    (hu : s.unit = some u) : cfg.timeout ≤ fuzzSecondsSince s.now u := by
  have hc := Run.clocks h
  have hent := (Run.inv h).tick pc ht (TickPc.engaged_of_overdue hp)
  have hle := ((hc.tick pc ht).2.1 hp).1
  exact hle.trans (fuzzSecondsSince_mono (Timespec.le_refl _)
    ((hc.unit u hu).2.2 hent.stage_pos))

/-- Whenever the handler asks for a dump, the input in progress was seen running after
a reading at least `timeout` seconds past its own start; and the same tick goes on to
libFuzzer's handler within 15005 more statements, none of which can block, and is
reported if the call is an input's. -/
theorem dump_sound {pre post : List (Event J)} {n k : ℕ} {s : State J}
    (h : (system J cfg).Run (pre ++ .requested n k :: post) s) :
    SeenOverdue cfg.timeout pre n ∧
    ∃ reported, ((∃ j armed clock, .called n j (.input armed clock) ∈ pre) → reported = true) ∧
      ((∃ between t rest, post = between ++ .chained n (.held k) t reported :: rest ∧
          (∀ e ∈ between, e.tickEdge = false) ∧ between.countP Event.ofAlarm ≤ 15005) ∨
        ((∀ e ∈ post, e.tickEdge = false) ∧ post.countP Event.ofAlarm ≤ 15005 ∧
          ∀ killFails, ((system J cfg).step s (.alarm killFails false)).isSome = true)) := by
  obtain ⟨t, a, t', hpre, hstep, hpost⟩ := h.split
  obtain ⟨hal, hmoves⟩ := step_moves hstep
  obtain ⟨rfl, ht, rfl⟩ := moves_requested hmoves
  have hclocks := Run.clocks hpre
  refine ⟨((hclocks.tick _ ht).2.1 rfl).2, reports cfg t, ?_, ?_⟩
  · rintro ⟨j, armed, clock, hj⟩
    have hcaller := Run.caller_of_engaged hpre ht rfl hj
    cases hu : t.unit with
    | none => simp [State.caller, hu] at hcaller
    | some u => simpa [reports, hu] using Run.unit_overdue hpre ht rfl hu
  · have hlate : ∀ u, t.unit = some u → cfg.timeout ≤ fuzzSecondsSince t.now u :=
      fun u hu => Run.unit_overdue hpre ht rfl hu
    have hasked : Asked cfg t.handoff.calls k (reports cfg t) { t with
        alarm := { t.alarm with requested := k }
        tick := some (.writeHeader k) } 15005 :=
      ⟨hal, rfl, ⟨_, rfl, rfl, rfl, by simp [TickPc.Counted], le_refl _⟩, rfl, hlate⟩
    rcases hpost.until asked_step hasked with ⟨x, e, y, rfl, ⟨now, rfl⟩, hx, hcount⟩ |
      ⟨hx, bound, hfin, hcount⟩
    · exact .inl ⟨x, now, y, rfl, hx, hcount⟩
    · obtain ⟨hal', -, ⟨pc, htick, -⟩, -⟩ := hfin
      exact .inr ⟨hx, by omega, fun killFails => by simp [system, step, liveStep, hal', htick]⟩

def threeSeconds : Config where
  timeout := 3
  alarmPresent := true
  queues := true
  lenient := false

/-- An input that starts at once and is still running when a tick comes three seconds
later, up to the request. -/
def overdueSchedule : List (Action Unit) := List.flatten
  [[.testOneInput ()], .replicate 11 .main, .replicate 8 .rThread,
    [.advance (.second 13), .tick], .replicate 8 (.alarm false false)]

def overdueTrace : List (Event Unit) := List.flatten
  [[.called 1 () (.input .zero (.second 10))], .replicate 11 (.silent .main),
    .replicate 4 (.silent .rThread),
    [.started 1 (.second 10), .runningSet 1, .executed 1 (), .silent .rThread, .silent .clock,
      .ticked true, .silent .alarm, .silent .alarm, .silent .alarm, .ageRead 1 (.second 13),
      .sawRunning 1, .silent .alarm, .silent .alarm]]

theorem dump_sound_overdue : SeenOverdue 3 overdueTrace 1 := by
  obtain ⟨s, h, -⟩ : ∃ s, (system Unit threeSeconds).Run (overdueTrace ++ .requested 1 1 :: []) s ∧
      s.handoff.calls = 1 :=
    run_of_schedule (.second 10) overdueSchedule (by decide +kernel)
  exact (dump_sound h).1

end ROssFuzz.TimeoutAlarm
