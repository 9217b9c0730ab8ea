import ROssFuzz.DumpCompleteness
import ROssFuzz.ReturningCalls

/-!
# Ticks after a hold

A hold that sees the input finish sets `finishing`, and ticks are dropped while it is
set. The main thread clears it before it re-arms and returns, so there is a gap: a tick
that is delivered there finds neither `finishing` nor `running` set and is handed to
libFuzzer, whose clock for the input has not been stopped. Outside the gap no tick gets
through until the input has returned.

What was dropped for one input is never missed for another: `finishing` is clear again before
an input runs, and a tick that finds one running stays with it until it is handed on or the
input has finished.
-/

namespace ROssFuzz
open RThreadHandoff TransitionRuns

namespace RThreadHandoff

/-- `finishing` has been cleared and the call has not returned. -/
@[grind] def MainPc.clearing : MainPc → Bool
  | .readArmed | .ret => true
  | _ => false

end RThreadHandoff

namespace TimeoutAlarm
variable {J : Type} {cfg : Config}

/-- Between a hold that saw the input finish and the input's return no tick is handed
to libFuzzer. -/
def Blameless (es : List (Event J)) : Prop :=
  ∀ pre n mid m route t reported post,
    es = pre ++ .sawFinished n :: mid ++ .chained m route t reported :: post →
      .returned n ∈ mid

/-- A tick is delivered in the gap. -/
def hitsGap (s : State J) : Action J → Bool
  | .tick => s.released && s.handoff.main.clearing
  | _ => false

/-- The `n`-th call has been released from a hold and has not returned; a tick that is
in the handler is about to be dropped. -/
structure Guarded (n : ℕ) (s : State J) : Prop where
  call : s.handoff.calls = n
  released : s.released = true
  tick : s.tick = none ∨ s.tick = some .finishingTest ∧ s.alarm.finishing = true
  phase : s.alarm.finishing = true ∨ s.handoff.main.clearing = true

private theorem Guarded.not_outside {n : ℕ} {s : State J} (hi : Inv s) (hg : Guarded n s) :
    s.handoff.main ≠ .outside := by
  intro hm
  rcases hg.phase with hf | hc
  · simp [hi.not_finishing_outside hm] at hf
  · simp [hm, MainPc.clearing] at hc

private theorem Guarded.keep {n : ℕ} {s s' : State J} (hg : Guarded n s)
    (hcalls : s'.handoff.calls = s.handoff.calls) (hrel : s'.released = s.released)
    (htick : s'.tick = s.tick) (hfin : s'.alarm.finishing = s.alarm.finishing)
    (hmain : s'.handoff.main = s.handoff.main ∨
      s.handoff.main = .condWait ∧ s'.handoff.main = .relock) : Guarded n s' := by
  obtain ⟨hcall, hr, ht, hp⟩ := hg
  refine ⟨hcalls ▸ hcall, hrel ▸ hr, by rwa [htick, hfin], ?_⟩
  rcases hmain with hm | ⟨hm, hm'⟩ <;> grind

/-- The main thread leaves the interval by returning only. -/
private theorem guarded_main {n : ℕ} {s : State J} {h : Handoff J} (hg : Guarded n s)
    (ht : s.tick = none) (hh : s.handoff.mainStep = some h) :
    mainEvent s.handoff = .returned n ∨ Guarded n { s with
      handoff := h
      alarm := mainEffect cfg s.handoff.main s.now s.alarm
      unit := if s.handoff.main = .ret then none else s.unit } := by
  obtain ⟨hcall, hr, -, hp⟩ := hg
  have hcalls := (mainStep_calls hh).1
  cases Handoff.mainStep_moves hh with
  | ret hm => exact .inl (by simp [mainEvent, hm, hcall])
  | clearFinishing | readArmed => exact .inr ⟨hcall, hr, .inl ht, .inr rfl⟩
  | _ hm =>
    have hf : s.alarm.finishing = true := hp.resolve_right (by simp [hm, MainPc.clearing])
    exact .inr ⟨hcalls ▸ hcall, hr, .inl ht, .inl (by simp [hf, hm])⟩

/-- Only the delivery of a tick is the delivery of a tick. -/
private theorem action_of_ticked {s s' : State J} {a : Action J} {b : Bool}
    (hs : step cfg s a = some (.ticked b, s')) : a = .tick := by
  have hshow := step_shows hs
  cases a with
  | tick => rfl
  | main | rThread | alarm | dump => cases step_actor hs rfl
  | _ => simp [Action.Shows] at hshow

private theorem guarded_moves {n : ℕ} {s s' : State J} {e : Event J} (hi : Inv s)
    (hg : Guarded n s) (hgap : ∀ b, e = .ticked b → s.handoff.main.clearing = false)
    (hs : Moves cfg s e s') : e = .returned n ∨ Guarded n s' := by
  have hin := hg.not_outside hi
  cases hs with
  | main h ht hh => exact guarded_main hg ht hh
  | call | testOneInput | fork => exact absurd ‹s.handoff.main = .outside› hin
  | rThread h hd hh =>
    exact .inr (hg.keep (rStep_calls hh).1 rfl rfl (by simp) (rStep_main hh))
  | tick ht hw =>
    have hf : s.alarm.finishing = true :=
      hg.phase.resolve_right (by simp [hgap _ rfl])
    exact .inr ⟨hg.call, hg.released, .inr ⟨rfl, hf⟩, .inl hf⟩
  | alarm killFails letPass pc hl ht =>
    -- the only tick there can be is dropped
    obtain ⟨hpc, hf⟩ : pc = .finishingTest ∧ s.alarm.finishing = true := by
      rcases hg.tick with h | ⟨h, hf⟩
      · simp [h] at ht
      · exact ⟨by simpa [h, eq_comm] using ht, hf⟩
    subst hpc
    simp only [alarmStep, hf, if_true]
    exact .inr ⟨hg.call, hg.released, .inl rfl, .inl hf⟩
  | dump pc hd => cases pc <;> exact .inr (hg.keep rfl rfl rfl rfl (.inl rfl))
  | wakeMain h hh =>
    obtain ⟨hm, rfl⟩ := Handoff.wakeMain_eq hh
    exact .inr (hg.keep rfl rfl rfl rfl (.inr ⟨hm, rfl⟩))
  | wakeRThread h hh =>
    obtain ⟨hm, rfl⟩ := Handoff.wakeR_eq hh
    exact .inr (hg.keep rfl rfl rfl rfl (.inl rfl))
  | advance | label | deliverDump => exact .inr (hg.keep rfl rfl rfl rfl (.inl rfl))

/-- The statement that ends a hold by dropping its tick opens the interval. -/
private theorem guarded_of_sawFinished {n : ℕ} {s s' : State J}
    (hs : Moves cfg s (.sawFinished n) s') : Guarded n s' := by
  obtain ⟨killFails, letPass, pc, ht, he, rfl⟩ := moves_ofAlarm hs rfl
  cases pc with
  | storeFinishing =>
    obtain rfl : n = s.handoff.calls := by simpa [alarmStep] using he
    exact ⟨rfl, rfl, .inl rfl, .inl rfl⟩
  | _ =>
    simp only [alarmStep, State.goto] at he
    (repeat' split at he) <;> simp at he

/-- In every run in which no tick is delivered in the gap, an input that a hold saw
finish is not blamed for the hold. -/
theorem blameless_of_no_gap {es : List (Event J)} {s : State J}
    (h : ((system J cfg).restrict fun s a => hitsGap s a = false).Run es s) : Blameless es := by
  rintro pre n mid m route t reported post rfl
  by_contra hopen
  obtain ⟨u, a, u', hrun, hstep, -⟩ := h.split
  have hguard : Guarded n u := by
    refine hrun.since (fun e => e = .sawFinished n) (fun e => e = .returned n) ?_ ?_ rfl
      fun x hx he => hopen (he ▸ hx)
    · rintro es s a e t - hs rfl
      exact guarded_of_sawFinished (step_moves (System.restrict_step.mp hs).2).2
    · intro es s a e t hr hg hs
      obtain ⟨hgap, hs⟩ := System.restrict_step.mp hs
      refine guarded_moves (Run.inv hr.of_restrict) hg ?_ (step_moves hs).2
      rintro b rfl
      obtain rfl := action_of_ticked hs
      simpa [hitsGap, hg.released] using hgap
  obtain ⟨-, ht, -⟩ := moves_chained (step_moves (System.restrict_step.mp hstep).2).2
  rcases hguard.tick with h | ⟨h, -⟩ <;> simp [h] at ht

/-- A tick in the gap gets through, whatever the hold knew. -/
theorem handed_on_in_gap {es : List (Event J)} {s : State J} (h : (system J cfg).Run es s)
    (hm : s.handoff.main.clearing = true) (killFails letPass : Bool) :
    alarmStep cfg killFails letPass s .finishingTest = s.goto .runningTest ∧
      alarmStep cfg killFails letPass s .runningTest = s.goto (.chain .idle) := by
  have hi := Run.inv h
  have hfin : s.alarm.finishing = false := by
    by_contra hf
    have hlv := (hi.finishing (by simpa using hf)).1
    cases hp : s.handoff.main <;> simp_all [MainPc.leaving, MainPc.clearing]
  have hrun : s.alarm.running = false := by
    by_contra hr
    rw [hi.running] at hr
    have hmw := (hi.handoff.fetched (RPc.fetched_of_inside (by simpa using hr))).1
    cases hp : s.handoff.main <;> simp_all [MainPc.awaiting, MainPc.clearing]
  simp [alarmStep, hfin, hrun]

/-- A hold that sees the input finish two and a half seconds after its start, three by
libFuzzer's clock, up to where the main thread is about to take the mutex back. -/
def heldSchedule : List (Action Unit) := List.flatten
  [[.testOneInput ()], .replicate 11 .main, .replicate 4 .rThread, [.advance (.half 10)],
    .replicate 4 .rThread, [.advance (.half 12), .tick], .replicate 5 (.alarm false false),
    [.advance (.second 13)], .replicate 3 .rThread, .replicate 4 (.alarm false false),
    .replicate 4 .rThread]

def heldTrace : List (Event Unit) := List.flatten
  [[.called 1 () (.input .zero (.second 10))], .replicate 11 (.silent .main),
    .replicate 4 (.silent .rThread),
    [.silent .clock, .started 1 (.half 10), .runningSet 1, .executed 1 (), .silent .rThread,
      .silent .clock, .ticked true, .silent .alarm, .silent .alarm, .silent .alarm,
      .ageRead 1 (.half 12), .sawRunning 1, .silent .clock, .silent .rThread, .silent .rThread,
      .finished 1, .silent .alarm, .ageRead 1 (.second 13), .silent .alarm, .sawFinished 1],
    .replicate 4 (.silent .rThread)]

/-- The next tick before that, and one after the return. -/
def droppedSchedule : List (Action Unit) := List.flatten
  [heldSchedule, [.tick, .alarm false false], .replicate 6 .main, [.tick],
    .replicate 3 (.alarm false false)]

def droppedTrace : List (Event Unit) := List.flatten
  [heldTrace, [.ticked false, .dropped false], .replicate 5 (.silent .main),
    [.returned 1, .ticked false, .silent .alarm, .silent .alarm,
      .chained 1 .idle (.second 13) false]]

theorem blameless_of_no_gap_dropped : Blameless droppedTrace := by
  obtain ⟨s, h, -⟩ : ∃ s, ((system Unit threeSeconds).restrict
      fun s a => hitsGap s a = false).Run droppedTrace s ∧ s.handoff.calls = 1 :=
    System.Run.of_exec (S := (system Unit threeSeconds).restrict fun s a => hitsGap s a = false)
      (fun s : State Unit => s.handoff.calls) (State.initial (.second 10)) droppedSchedule
      ⟨_, rfl⟩ (by decide +kernel)
  exact blameless_of_no_gap h

/-- The next tick in the gap. -/
def gapSchedule : List (Action Unit) := List.flatten
  [heldSchedule, .replicate 4 .main, [.tick], .replicate 3 (.alarm false false)]

def gapTrace : List (Event Unit) := List.flatten
  [heldTrace, .replicate 4 (.silent .main), [.ticked false, .silent .alarm, .silent .alarm,
    .chained 1 .idle (.second 13) true]]

/-- libFuzzer reports a timeout for an input that finished within its time. -/
theorem not_blameless_in_gap :
    (∃ s, (system Unit threeSeconds).Run gapTrace s) ∧ ¬ Blameless gapTrace := by
  refine ⟨?_, fun hb => ?_⟩
  · obtain ⟨s, h, -⟩ : ∃ s, (system Unit threeSeconds).Run gapTrace s ∧ s.handoff.calls = 1 :=
      run_of_schedule (.second 10) gapSchedule (by decide +kernel)
    exact ⟨s, h⟩
  · have hmem := hb (gapTrace.take 35) 1 (gapTrace.drop 36 |>.take 11) 1 .idle (.second 13) true []
      (by decide +kernel)
    revert hmem
    decide +kernel

/-! ### Ticks of later inputs -/

private theorem moves_dropped {s s' : State J} {b : Bool} (hs : Moves cfg s (.dropped b) s') :
    s.tick = some .finishingTest ∧ s.alarm.finishing = true ∧ b = s.tickRunning := by
  obtain ⟨killFails, letPass, pc, ht, he, -⟩ := moves_ofAlarm hs rfl
  cases pc <;> simp only [alarmStep, State.goto] at he <;> (repeat' split at he) <;> simp_all

/-- The hold has read the input's age past the timeout, or has seen it finish. -/
def TickPc.late (timeout : ℤ) : TickPc → Bool
  | .runningLook age => decide (timeout ≤ age)
  | .storeFinishing => true
  | pc => pc.overdue

/-- A tick that found the `n`-th call's input running, begun at `began`, is still in the
handler; `mid` is what has happened since its delivery. -/
structure Attended (cfg : Config) (n : ℕ) (began : Timespec) (mid : List (Event J))
    (s : State J) : Prop where
  alive : s.exited = false
  call : s.handoff.calls = n
  found : s.tickRunning = true
  input : s.alarm.running = true ∨ .finished n ∈ mid
  store : s.tick = some .storeFinishing → .finished n ∈ mid
  tick : s.tick ≠ none
  left : mid.countP Event.ofAlarm + s.tickLeft ≤ 15011 + 3 * mid.countP Event.readsAge
  late : ∀ before t after, mid = before ++ .ageRead n t :: after →
    cfg.timeout ≤ fuzzSecondsSince t began →
      (∀ pc, s.tick = some pc → pc.late cfg.timeout = true) ∧
        after.countP Event.ofAlarm + s.tickLeft ≤ 15010

/-- How a tick ends: it is handed to libFuzzer, or the input that it found running has
finished. -/
def Handled (n : ℕ) (mid : List (Event J)) (e : Event J) : Prop :=
  (∃ route t reported, e = .chained n route t reported) ∨ e = .sawFinished n ∧ .finished n ∈ mid

/-- An event in a trace that one more is added to: the new one, or one before it. -/
private theorem snoc_eq_append_cons {α : Type*} {l before after : List α} {x y : α}
    (h : l ++ [x] = before ++ y :: after) :
    (x = y ∧ after = []) ∨ ∃ rest, after = rest ++ [x] ∧ l = before ++ y :: rest := by
  rcases List.eq_nil_or_concat after with rfl | ⟨rest, z, rfl⟩
  · obtain ⟨-, h⟩ := List.append_inj' h rfl
    exact .inl ⟨by simpa using h, rfl⟩
  · rw [List.concat_eq_append, ← List.cons_append, ← List.append_assoc] at h
    obtain ⟨hl, h⟩ := List.append_inj' h rfl
    obtain rfl : x = z := by simpa using h
    exact .inr ⟨rest, List.concat_eq_append, hl⟩

/-- Steps of the others leave the tick where it is. -/
private theorem Attended.keep {n : ℕ} {began : Timespec} {mid : List (Event J)} {s t : State J}
    {e : Event J} (h : Attended cfg n began mid s) (he : e.ofAlarm = false)
    (hx : t.exited = s.exited) (hcalls : t.handoff.calls = s.handoff.calls)
    (hfound : t.tickRunning = s.tickRunning) (htick : t.tick = s.tick)
    (hrun : s.alarm.running = true → t.alarm.running = true ∨ e = .finished n) :
    Attended cfg n began (mid ++ [e]) t := by
  have hreads : e.readsAge = false := by cases e <;> simp_all [Event.ofAlarm, Event.readsAge]
  have hleft : t.tickLeft = s.tickLeft := by simp [State.tickLeft, htick]
  refine ⟨hx ▸ h.alive, hcalls ▸ h.call, hfound ▸ h.found, ?_, ?_, htick ▸ h.tick, ?_, ?_⟩
  · rcases h.input with ho | ho
    · exact (hrun ho).imp_right fun he => by simp [he]
    · exact .inr (by simp [ho])
  · exact fun ht => List.mem_append_left _ (h.store (htick ▸ ht))
  · simpa [List.countP_append, he, hreads, hleft] using h.left
  · intro before t' after hmid hlate
    rcases snoc_eq_append_cons hmid with ⟨rfl, -⟩ | ⟨rest, rfl, hrest⟩
    · cases he
    · simpa [List.countP_append, he, hleft, htick] using h.late before t' rest hrest hlate

/-- Past the reading that ends the hold there is no other. -/
private theorem late_alarmStep (killFails letPass : Bool) {s : State J} {pc : TickPc}
    (h : pc.late cfg.timeout = true) :
    (alarmStep cfg killFails letPass s pc).1.readsAge = false ∧
      ∀ pc', (alarmStep cfg killFails letPass s pc).2.tick = some pc' →
        pc'.late cfg.timeout = true := by
  cases pc with
  | runningLook age =>
    have hage : age ≥ cfg.timeout := by simpa [TickPc.late] using h
    simp only [alarmStep, State.goto, if_pos hage]
    split <;> simp [Event.readsAge, TickPc.late, TickPc.overdue]
  | chain route => cases route <;> simp [alarmStep, Event.readsAge]
  | finishingTest | runningTest | armedTest | readAge | nanosleep =>
    simp [TickPc.late, TickPc.overdue] at h
  | _ =>
    simp only [alarmStep, State.goto]
    (repeat' split) <;> simp [Event.readsAge, TickPc.late, TickPc.overdue]

/-- One statement of the handler: the tick ends, or goes on. -/
private theorem attended_alarm {n : ℕ} {began : Timespec} {mid : List (Event J)} {s : State J}
    {pc : TickPc} (killFails letPass : Bool) (hi : Inv s) (h : Attended cfg n began mid s)
    (hbegan : pc = .readAge → s.alarm.started = began) (ht : s.tick = some pc) :
    ((alarmStep cfg killFails letPass s pc).1.tickEdge = true ∧
        Handled n mid (alarmStep cfg killFails letPass s pc).1) ∨
      ((alarmStep cfg killFails letPass s pc).1.tickEdge = false ∧
        Attended cfg n began (mid ++ [(alarmStep cfg killFails letPass s pc).1])
          (alarmStep cfg killFails letPass s pc).2) := by
  have hstep := tickLeft_alarmStep cfg killFails letPass ht
  have hcall : s.handoff.calls = n := h.call
  cases hedge : (alarmStep cfg killFails letPass s pc).1.tickEdge with
  | true =>
    refine .inl ⟨rfl, ?_⟩
    cases pc with
    | finishingTest =>
      have hfin := hi.dropped ht h.found
      simp [alarmStep, State.goto, hfin, Event.tickEdge] at hedge
    | storeFinishing => exact .inr ⟨by simp [alarmStep, hcall], h.store ht⟩
    | chain route => exact .inl ⟨route, s.now, reports cfg s, by simp [alarmStep, hcall]⟩
    | _ =>
      simp only [alarmStep, State.goto] at hedge
      (repeat' split at hedge) <;> simp [Event.tickEdge] at hedge
  | false =>
    have hown : (alarmStep cfg killFails letPass s pc).1.ofAlarm = true := by
      simp [Event.ofAlarm_iff]
    have hon : (alarmStep cfg killFails letPass s pc).2.exited = false ∧
        (alarmStep cfg killFails letPass s pc).2.tick ≠ none := by
      have hx := h.alive
      cases pc <;> simp only [alarmStep, State.goto] at hedge ⊢ <;> (repeat' split) <;>
        simp_all [Event.tickEdge]
    have hover : s.alarm.running = true ∨ .finished n ∈
        mid ++ [(alarmStep cfg killFails letPass s pc).1] :=
      h.input.imp_right (List.mem_append_left _)
    refine .inr ⟨rfl, hon.1, by simpa using hcall, by simpa using h.found, by simpa using hover, ?_,
      hon.2, ?_, ?_⟩
    · intro hst
      refine hover.resolve_left fun hr => ?_
      -- the hold is given up only when the input has been seen not to run
      cases pc <;> simp only [alarmStep, State.goto] at hst <;> (repeat' split at hst) <;> simp_all
    · have hleft := h.left
      simp only [List.countP_append, List.countP_singleton, hown, if_true]
      split at hstep <;> simp_all <;> omega
    · intro before t after hmid hlate
      rcases snoc_eq_append_cons hmid with ⟨hread, rfl⟩ | ⟨rest, rfl, hrest⟩
      · cases pc with
        | readAge =>
          obtain rfl : s.now = t := by simpa [alarmStep, hcall] using hread
          simp [alarmStep, TickPc.late, State.tickLeft, TickPc.left, hbegan rfl, hlate]
        | _ =>
          simp only [alarmStep, State.goto] at hread
          (repeat' split at hread) <;> simp at hread
      · obtain ⟨hpc, hcount⟩ := h.late before t rest hrest hlate
        obtain ⟨hreads, hnext⟩ := late_alarmStep killFails letPass (hpc pc ht)
        rw [hreads] at hstep
        simp only [List.countP_append, List.countP_singleton, hown, if_true]
        exact ⟨hnext, by simp at hstep; omega⟩

private theorem attended_moves {n : ℕ} {began : Timespec} {pre mid : List (Event J)}
    {s t : State J} {e : Event J} (hr : (system J cfg).Run (pre ++ mid) s)
    (hbegan : .started n began ∈ pre) (h : Attended cfg n began mid s) (hs : Moves cfg s e t) :
    (e.tickEdge = true ∧ Handled n mid e) ∨
      (e.tickEdge = false ∧ Attended cfg n began (mid ++ [e]) t) := by
  have hi := Run.inv hr
  cases hs with
  | alarm killFails letPass pc hl ht =>
    refine attended_alarm killFails letPass hi h ?_ ht
    rintro rfl
    have hstarted := Run.started_of_entered hr (hi.tick _ ht rfl)
    rw [h.call] at hstarted
    have heq := Run.milestone_unique hr hstarted (List.mem_append_left _ hbegan) rfl rfl
    simpa using heq
  | rThread h' hd hh =>
    obtain ⟨hown, hedge⟩ := rEvent_ofAlarm s.handoff s.now
    refine .inr ⟨hedge, h.keep hown rfl (rStep_calls hh).1 rfl rfl fun hrun => ?_⟩
    by_cases hclear : s.handoff.r = .clearRunning
    · have htaken := (hi.handoff.fetched (by simp [hclear, RPc.fetched])).2.2
      exact .inr (by simp [rEvent, hclear, htaken, h.call])
    · exact .inl (by simp [hrun, hclear])
  | dump pc hd =>
    cases pc <;> exact .inr ⟨rfl, h.keep rfl rfl rfl rfl rfl .inl⟩
  | wakeMain h' hh =>
    obtain ⟨-, rfl⟩ := Handoff.wakeMain_eq hh
    exact .inr ⟨rfl, h.keep rfl rfl rfl rfl rfl .inl⟩
  | wakeRThread h' hh =>
    obtain ⟨-, rfl⟩ := Handoff.wakeR_eq hh
    exact .inr ⟨rfl, h.keep rfl rfl rfl rfl rfl .inl⟩
  | advance | label | deliverDump => exact .inr ⟨rfl, h.keep rfl rfl rfl rfl rfl .inl⟩
  | main | call | testOneInput | tick | fork => exact absurd ‹s.tick = none› h.tick

/-- A tick that finds an input running finds the latest call's, and begins to attend to it. -/
private theorem attended_ticked {pre : List (Event J)} {s t : State J} {a : Action J}
    (hr : (system J cfg).Run pre s) (hs : step cfg s a = some (.ticked true, t)) :
    .started s.handoff.calls s.alarm.started ∈ pre ∧ .runningSet s.handoff.calls ∈ pre ∧
      .finished s.handoff.calls ∉ pre ∧
      Attended cfg s.handoff.calls s.alarm.started [] t := by
  obtain rfl := action_of_ticked hs
  obtain ⟨hx, -, hrun, rfl⟩ : s.exited = false ∧ (s.tick = none ∧ s.alarm.installed = true) ∧
      s.alarm.running = true ∧ _ = t := by
    simpa [step, liveStep] using hs
  have hi := Run.inv hr
  have hin : s.handoff.r.inside = true := hi.running ▸ hrun
  refine ⟨Run.started_of_entered hr (.of_inside hi.handoff hin), Run.runningSet_of_inside hr hin,
    Run.not_finished_of_inside hr hin, hx, rfl, hrun, .inl hrun, by simp, by simp, ?_, by simp⟩
  simp [State.tickLeft, TickPc.left]

/-- What happens of a tick that finds the `n`-th call's input running, begun at `began`: `mid`
since its delivery, before it has ended, and then `post`. It can always go on; it executes at
most 15011 statements and three more for each reading of the input's age, and at most 15010
once it has read one past the timeout. -/
structure Kept (cfg : Config) (n : ℕ) (began : Timespec) (mid post : List (Event J))
    (s : State J) : Prop where
  ends : ∀ e rest, post = e :: rest → e.tickEdge = true → Handled n mid e
  goesOn : post = [] → ∀ killFails, ∃ e t, step cfg s (.alarm killFails false) = some (e, t)
  bounded : mid.countP Event.ofAlarm ≤ 15011 + 3 * mid.countP Event.readsAge
  overdue : ∀ before t after, mid = before ++ .ageRead n t :: after →
    cfg.timeout ≤ fuzzSecondsSince t began → after.countP Event.ofAlarm ≤ 15010

/-- `finishing` is clear while an input runs, so a tick delivered then is never dropped: it
stays with that very input until it is handed to libFuzzer or the input has finished, which
it is bound to. -/
theorem running_not_finishing {es : List (Event J)} {s : State J}
    (h : (system J cfg).Run es s) :
    (s.alarm.running = true → s.alarm.finishing = false) ∧
      .dropped true ∉ es ∧
      ∀ pre mid post, es = pre ++ .ticked true :: mid ++ post →
        (∀ e ∈ mid, e.tickEdge = false) →
          ∃ n began, .started n began ∈ pre ∧ .runningSet n ∈ pre ∧ .finished n ∉ pre ∧
            Kept cfg n began mid post s := by
  refine ⟨fun hr => (Run.inv h).not_finishing hr, fun hd => ?_, ?_⟩
  · obtain ⟨pre, post, rfl⟩ := List.append_of_mem hd
    obtain ⟨u, a, u', hpre, hstep, -⟩ := h.split
    obtain ⟨ht, hf, hb⟩ := moves_dropped (step_moves hstep).2
    simp [(Run.inv hpre).dropped ht hb.symm] at hf
  · rintro pre mid post rfl hmid
    rw [List.append_assoc, List.cons_append] at h
    obtain ⟨u, a, v, hpre, hstep, hrest⟩ := h.split
    obtain ⟨w, hin, hpost⟩ := hrest.split
    obtain ⟨hstarted, hset, hfin, hopen⟩ := attended_ticked hpre hstep
    have hat := (hpre.snoc hstep).since_trace (fun e => e.tickEdge = true) hopen
      (fun fs s a e t hr hG hs => (attended_moves hr (List.mem_append_left _ hstarted) hG
        (step_moves hs).2).imp And.left And.right) hin (by simpa using hmid)
    have hrun := (hpre.snoc hstep).append hin
    refine ⟨_, _, hstarted, hset, hfin, ?_, ?_, ?_, ?_⟩
    · rintro e rest rfl hedge
      obtain ⟨a', w', hs, -⟩ := hpost.head
      rcases attended_moves hrun (List.mem_append_left _ hstarted) hat (step_moves hs).2 with
        ⟨-, hended⟩ | ⟨hon, -⟩
      · exact hended
      · simp [hedge] at hon
    · rintro rfl killFails
      obtain rfl := hpost.eq_of_nil
      obtain ⟨pc, ht⟩ := Option.ne_none_iff_exists'.mp hat.tick
      exact ⟨(alarmStep cfg killFails false s pc).1, (alarmStep cfg killFails false s pc).2,
        by simp [step, liveStep, hat.alive, ht]⟩
    · exact (Nat.le_add_right _ _).trans hat.left
    · intro before t after hb hlate
      exact (Nat.le_add_right _ _).trans (hat.late before t after hb hlate).2

/-- The tick that the hold ends by dropping. -/
theorem running_not_finishing_held : ∃ n began s,
    Event.started n began ∈ heldTrace.take 22 ∧
      Kept threeSeconds n began (heldTrace.drop 23 |>.take 12) (heldTrace.drop 35) s := by
  obtain ⟨s, h, -⟩ : ∃ s, (system Unit threeSeconds).Run heldTrace s ∧ s.handoff.calls = 1 :=
    run_of_schedule (.second 10) heldSchedule (by decide +kernel)
  obtain ⟨n, began, hstarted, -, -, hkept⟩ := (running_not_finishing h).2.2 (heldTrace.take 22)
    (heldTrace.drop 23 |>.take 12) (heldTrace.drop 35) (by decide +kernel) (by decide +kernel)
  exact ⟨n, began, s, hstarted, hkept⟩

end TimeoutAlarm
end ROssFuzz
