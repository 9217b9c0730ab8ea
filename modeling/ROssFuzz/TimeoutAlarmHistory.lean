import ROssFuzz.TimeoutAlarmInvariant
import Mathlib.Data.List.Range

/-!
# The trace of a job

A job passes five milestones: the call, the R thread's reading of its clock, `running`
set, `fn` executed, `running` cleared. Counted through all calls they are numbered
consecutively, and no step skips one or passes one twice, so the milestones of a trace
are an initial segment of the numbers. Exactly-once and ordering facts are read off
that segment.
-/

namespace ROssFuzz
open RThreadHandoff TransitionRuns

namespace RThreadHandoff

/-- The main thread is in the call and has not begun to wait. -/
def MainPc.posting : MainPc → Bool
  | .alarmWrap | .startedTest | .atfork | .create | .setStarted | .bumpInput | .skipZero
  | .lock | .postJob | .postBroadcast => true
  | _ => false

def RPc.stage : RPc → ℕ
  | .setRunning => 1
  | .readJob => 2
  | .labelReset | .runJob | .labelClear | .clearRunning => 3
  | .lock | .clearJob => 4
  | _ => 0

/-- The last milestone the latest call has passed. -/
def Handoff.stage {J : Type} (h : Handoff J) : ℕ :=
  if h.main.posting then 0 else if h.job = none then 4 else h.r.stage

/-- The same, counted through all calls. -/
def Handoff.milestone {J : Type} (h : Handoff J) : ℕ := 5 * h.calls + h.stage

theorem MainPc.posting_of_awaiting {m : MainPc} (h : m.awaiting = true) : m.posting = false := by
  cases m <;> first | rfl | cases h

/-- Once the job has been running, it has passed the reading of its start. -/
theorem Handoff.Entered.stage_pos {J : Type} {h : Handoff J} (he : h.Entered) : 1 ≤ h.stage := by
  obtain ⟨hmw, hjob⟩ := he
  have hpost := MainPc.posting_of_awaiting hmw
  rcases hjob with hent | hj
  · cases hr : h.r <;>
      simp_all [Handoff.stage, RPc.entered, RPc.inside, RPc.stage] <;> split <;> omega
  · simp [Handoff.stage, hpost, hj]

end RThreadHandoff

namespace TimeoutAlarm
variable {J : Type} {cfg : Config}

/-- The milestone an event is. -/
def Event.milestone : Event J → Option ℕ
  | .called n _ _ => some (5 * n)
  | .started n _ => some (5 * n + 1)
  | .runningSet n => some (5 * n + 2)
  | .executed n _ => some (5 * n + 3)
  | .finished n => some (5 * n + 4)
  | _ => none

private theorem milestone_main {h h' : Handoff J} (hi : h.Inv) (hs : h.mainStep = some h') :
    (mainEvent h).milestone = none ∧ h'.milestone = h.milestone := by
  have hquiet := hi.quiet
  have hposted := hi.posted
  cases Handoff.mainStep_moves hs with
  | postBroadcast hm =>
    obtain ⟨hj, hr⟩ := hposted hm
    cases hr' : h.r <;> simp_all [mainEvent, Event.milestone, Handoff.milestone, Handoff.stage,
      MainPc.posting, RPc.stage, RPc.idle]
  | _ hm =>
    simp_all [mainEvent, Event.milestone, Handoff.milestone, Handoff.stage, MainPc.posting,
      MainPc.quiet]

/-- A step out of the job passes the next milestone or none. -/
def NextMilestone (e : Event J) (h h' : Handoff J) : Prop :=
  (e.milestone = none ∧ h'.milestone = h.milestone) ∨
    (e.milestone = some (h.milestone + 1) ∧ h'.milestone = h.milestone + 1)

private theorem milestone_r {h h' : Handoff J} (hi : h.Inv) (now : Timespec)
    (hs : h.rStep = some h') : NextMilestone (rEvent h now) h h' := by
  have hwait := hi.awaiting_of_not_idle
  have hfetched := hi.fetched
  cases Handoff.rStep_moves hs with
  | firstLock hr | relock hr | takeJob hr | lock hr =>
    left
    simp [rEvent, Event.milestone, hr, Handoff.milestone, Handoff.stage, RPc.stage]
  | jobWait hr hj | jobFound hr hj =>
    left
    simp_all [rEvent, Event.milestone, Handoff.milestone, Handoff.stage, RPc.stage]
  | ackBroadcast hr =>
    obtain ⟨hmw, hjob⟩ := hwait (by simp [hr, RPc.idle])
    have hnone : h.job = none := by
      simpa [Handoff.Awaiting, hr, RPc.idle, RPc.fetched] using hjob
    left
    have hposting := MainPc.posting_of_awaiting hmw
    have hposting' : (if h.main = .condWait then .relock else h.main).posting = false := by
      split
      · rfl
      · exact hposting
    simp [rEvent, Event.milestone, Handoff.milestone, Handoff.stage, hr, hnone, hposting, hposting']
  | readJob hr =>
    obtain ⟨hmw, hjob, ht⟩ := hfetched (by simp [hr, RPc.fetched])
    obtain ⟨hread, hframe, -⟩ := hi.readJob hr
    obtain ⟨j, hj⟩ := Option.isSome_iff_exists.mp hframe
    right
    have hposting := MainPc.posting_of_awaiting hmw
    simp_all [rEvent, Event.milestone, Handoff.milestone, Handoff.stage, RPc.stage]
  | _ hr =>
    obtain ⟨hmw, hjob, ht⟩ := hfetched (by simp [hr, RPc.fetched])
    have hposting := MainPc.posting_of_awaiting hmw
    simp_all [NextMilestone, rEvent, Event.milestone, Handoff.milestone, Handoff.stage, RPc.stage]

private theorem milestone_alarm (killFails letPass : Bool) (s : State J) (pc : TickPc) :
    (alarmStep cfg killFails letPass s pc).1.milestone = none := by
  have hactor := alarmStep_actor cfg killFails letPass s pc
  cases he : (alarmStep cfg killFails letPass s pc).1 <;>
    simp [he, Event.actor, Event.milestone] at hactor ⊢

theorem moves_milestone {s s' : State J} {e : Event J} (hi : s.handoff.Inv)
    (hs : Moves cfg s e s') : NextMilestone e s.handoff s'.handoff := by
  cases hs with
  | main h ht hh => exact .inl (milestone_main hi hh)
  | rThread h hd hh => exact milestone_r hi s.now hh
  | alarm killFails letPass pc hl ht =>
    exact .inl ⟨milestone_alarm killFails letPass s pc, by simp⟩
  | call j hm ht | testOneInput j hm ht =>
    have hjob := (hi.quiet (by simp [hm, MainPc.quiet])).1
    right
    simp [Event.milestone, Handoff.milestone, Handoff.stage, Handoff.enter, hm, hjob,
      MainPc.posting]
    omega
  | dump pc hd => cases pc <;> exact .inl ⟨rfl, rfl⟩
  | wakeMain h hh =>
    obtain ⟨hm, rfl⟩ := Handoff.wakeMain_eq hh
    exact .inl ⟨rfl, by simp [Handoff.milestone, Handoff.stage, hm, MainPc.posting]⟩
  | wakeRThread h hh =>
    obtain ⟨hr, rfl⟩ := Handoff.wakeR_eq hh
    exact .inl ⟨rfl, by simp [Handoff.milestone, Handoff.stage, hr, RPc.stage]⟩
  | fork hm ht =>
    have hjob := (hi.quiet (by simp [hm, MainPc.quiet])).1
    refine .inl ⟨rfl, ?_⟩
    by_cases ha : s.handoff.atforkRegistered = true <;>
      simp [Handoff.milestone, Handoff.stage, Handoff.child, Handoff.forget, hm, hjob, ha,
        MainPc.posting]
  | advance | label | tick | deliverDump => exact .inl ⟨rfl, rfl⟩

theorem Run.milestone_pos {es : List (Event J)} {s : State J} (h : (system J cfg).Run es s) :
    4 ≤ s.handoff.milestone := by
  refine h.induct (I := fun _ s => 4 ≤ s.handoff.milestone) ?_ ?_
  · rintro s ⟨now, rfl⟩
    exact Nat.le_refl 4
  · intro es s a e t hr hi hs
    rcases moves_milestone (Run.inv hr).handoff (step_moves hs).2 with ⟨-, h⟩ | ⟨-, h⟩ <;> omega

/-- The milestones of a trace, in their order: 5, 6, 7, and so on up to the last one. -/
theorem Run.milestones {es : List (Event J)} {s : State J} (h : (system J cfg).Run es s) :
    es.filterMap Event.milestone = List.range' 5 (s.handoff.milestone - 4) := by
  refine h.induct (I := fun es s =>
    es.filterMap Event.milestone = List.range' 5 (s.handoff.milestone - 4)) ?_ ?_
  · rintro s ⟨now, rfl⟩
    rfl
  · intro es s a e t hr hi hs
    have hpos := Run.milestone_pos hr
    rcases moves_milestone (Run.inv hr).handoff (step_moves hs).2 with ⟨he, ht⟩ | ⟨he, ht⟩
    · simp [List.filterMap_append, hi, he, ht]
    · have hsub : s.handoff.milestone + 1 - 4 = s.handoff.milestone - 4 + 1 := by omega
      have hnext : 5 + (s.handoff.milestone - 4) = s.handoff.milestone + 1 := by omega
      simp only [List.filterMap_append, hi, ht, hsub, List.range'_concat, List.filterMap_cons, he,
        List.filterMap_nil, Nat.one_mul, hnext]

theorem Run.milestone_of_mem {es : List (Event J)} {s : State J} (h : (system J cfg).Run es s)
    {e : Event J} (he : e ∈ es) {m : ℕ} (hm : e.milestone = some m) :
    5 ≤ m ∧ m ≤ s.handoff.milestone := by
  have hmem : m ∈ es.filterMap Event.milestone := List.mem_filterMap.mpr ⟨e, he, hm⟩
  have hpos := Run.milestone_pos h
  rw [Run.milestones h, List.mem_range'_1] at hmem
  omega

/-- A milestone has been passed once if it is not past the last one, and else never. -/
theorem Run.milestone_count {es : List (Event J)} {s : State J} (h : (system J cfg).Run es s)
    (m : ℕ) : es.countP (fun e => e.milestone == some m) =
      if 5 ≤ m ∧ m ≤ s.handoff.milestone then 1 else 0 := by
  have hcount : es.countP (fun e => e.milestone == some m) =
      (es.filterMap Event.milestone).count m := by
    rw [List.count, List.countP_filterMap]
    congr 1
    funext e
    cases e.milestone <;> simp
  have hpos := Run.milestone_pos h
  have hnodup : (List.range' 5 (s.handoff.milestone - 4)).Nodup := List.nodup_range'
  rw [hcount, Run.milestones h, hnodup.count]
  simp only [List.mem_range'_1]
  split <;> split <;> omega

/-- Each milestone up to the last one has been passed. -/
theorem Run.mem_of_milestone {es : List (Event J)} {s : State J} (h : (system J cfg).Run es s)
    {m : ℕ} (hpos : 5 ≤ m) (hle : m ≤ s.handoff.milestone) : ∃ e ∈ es, e.milestone = some m := by
  have hmem : m ∈ es.filterMap Event.milestone := by
    rw [Run.milestones h, List.mem_range'_1]
    omega
  exact List.mem_filterMap.mp hmem

/-- A milestone is one event. -/
theorem Run.milestone_unique {es : List (Event J)} {s : State J} (h : (system J cfg).Run es s)
    {e e' : Event J} (he : e ∈ es) (he' : e' ∈ es) {m : ℕ} (hm : e.milestone = some m)
    (hm' : e'.milestone = some m) : e = e' := by
  have hle : es.countP (fun e => e.milestone == some m) ≤ 1 := by
    rw [Run.milestone_count h]
    split <;> omega
  rw [List.countP_eq_length_filter] at hle
  have hmem : e ∈ es.filter fun e => e.milestone == some m := by simp [he, hm]
  have hmem' : e' ∈ es.filter fun e => e.milestone == some m := by simp [he', hm']
  generalize es.filter (fun e => e.milestone == some m) = l at hle hmem hmem'
  match l with
  | [] => simp at hmem
  | [x] => exact (List.mem_singleton.mp hmem).trans (List.mem_singleton.mp hmem').symm
  | x :: y :: l => simp at hle

/-- What is behind a state of a run: the call whose frame is alive, the calls of the
jobs executed, and the reading `started` was taken from. -/
structure Behind (es : List (Event J)) (s : State J) : Prop where
  called : ∀ j, s.handoff.frame = some j → ∃ c, .called s.handoff.calls j c ∈ es
  executed : ∀ n j, .executed n j ∈ es → ∃ c, .called n j c ∈ es
  wild : .wildRead ∉ es
  started : 0 < s.handoff.calls → 1 ≤ s.handoff.stage →
    .started s.handoff.calls s.alarm.started ∈ es

theorem mainStep_calls {h h' : Handoff J} (hs : h.mainStep = some h') :
    h'.calls = h.calls ∧ (h'.frame = h.frame ∨ h'.frame = none) := by
  cases Handoff.mainStep_moves hs <;> simp

theorem mainStep_stage {h h' : Handoff J} (hi : h.Inv) (hs : h.mainStep = some h') :
    h'.stage = h.stage := by
  obtain ⟨hcalls, -⟩ := mainStep_calls hs
  obtain ⟨-, hmile⟩ := milestone_main hi hs
  simp only [Handoff.milestone, hcalls] at hmile
  omega

theorem rStep_calls {h h' : Handoff J} (hs : h.rStep = some h') :
    h'.calls = h.calls ∧ h'.frame = h.frame := by
  cases Handoff.rStep_moves hs <;> simp

theorem mainEvent_cases (h : Handoff J) :
    mainEvent h = .silent .main ∨ mainEvent h = .returned h.calls := by
  cases hm : h.main <;> simp [mainEvent, hm]

/-- The R thread's statement past the reading of its clock. -/
theorem stage_pos_of_rStep {h h' : Handoff J} (hi : h.Inv) (hs : h.rStep = some h')
    (hr : h.r ≠ .readStarted) (hpos : 1 ≤ h'.stage) : 1 ≤ h.stage := by
  obtain ⟨hcalls, -⟩ := rStep_calls hs
  have htaken : h.r.fetched = true → h.taken = h.calls := fun hf => (hi.fetched hf).2.2
  rcases milestone_r hi .zero hs with ⟨-, hm⟩ | ⟨he, -⟩
  · simp only [Handoff.milestone, hcalls] at hm
    omega
  · cases hp : h.r <;> simp only [rEvent, hp] at he <;>
      grind [Event.milestone, Handoff.milestone, RPc.fetched]

private theorem behind_rThread {es : List (Event J)} {s : State J} {h : Handoff J}
    (hi : s.handoff.Inv) (hb : Behind es s) (hh : s.handoff.rStep = some h) :
    Behind (es ++ [rEvent s.handoff s.now]) { s with
      handoff := h
      alarm := rEffect s.unit.isSome s.handoff.r s.now s.alarm } := by
  obtain ⟨hcalls, hframe⟩ := rStep_calls hh
  refine ⟨?_, ?_, ?_, ?_⟩
  · intro j hj
    obtain ⟨c, hc⟩ := hb.called j (by simpa [hframe] using hj)
    exact ⟨c, by simp [hcalls, hc]⟩
  · intro n j hn
    rcases List.mem_append.mp hn with hn | hn
    · obtain ⟨c, hc⟩ := hb.executed n j hn
      exact ⟨c, by simp [hc]⟩
    · -- the pointer is the live call's, so the job is the one called
      have he : rEvent s.handoff s.now = .executed n j := by simpa [eq_comm] using hn
      cases hr : s.handoff.r with
      | readJob =>
        obtain ⟨hread, -, ht⟩ := hi.readJob hr
        cases hj : s.handoff.frame with
        | none => simp [rEvent, hr, hread, hj] at he
        | some j' =>
          obtain ⟨rfl, rfl⟩ : s.handoff.taken = n ∧ j' = j := by
            simpa [rEvent, hr, hread, hj] using he
          obtain ⟨c, hc⟩ := hb.called j' hj
          exact ⟨c, by simp [ht, hc]⟩
      | _ => simp [rEvent, hr] at he
  · intro hw
    rcases List.mem_append.mp hw with hw | hw
    · exact hb.wild hw
    · have he : rEvent s.handoff s.now = .wildRead := by simpa [eq_comm] using hw
      cases hr : s.handoff.r with
      | readJob =>
        obtain ⟨hread, hsome, -⟩ := hi.readJob hr
        obtain ⟨j, hj⟩ := Option.isSome_iff_exists.mp hsome
        simp [rEvent, hr, hread, hj] at he
      | _ => simp [rEvent, hr] at he
  · intro hpos hstage
    by_cases hr : s.handoff.r = .readStarted
    · have ht := (hi.fetched (by simp [hr, RPc.fetched])).2.2
      simp [rEvent, hr, hcalls, ht]
    · have hst := hb.started (by simpa [hcalls] using hpos) (stage_pos_of_rStep hi hh hr hstage)
      simp [hcalls, hr, hst]

/-- What does not touch the call, the job or `started` keeps what is behind. -/
private theorem Behind.keep {es : List (Event J)} {e : Event J} {s s' : State J}
    (hb : Behind es s) (he : ∀ n j, e ≠ .executed n j) (hw : e ≠ .wildRead)
    (hcalls : s'.handoff.calls = s.handoff.calls)
    (hframe : s'.handoff.frame = s.handoff.frame ∨ s'.handoff.frame = none)
    (hstage : s'.handoff.stage = s.handoff.stage) (hst : s'.alarm.started = s.alarm.started) :
    Behind (es ++ [e]) s' := by
  refine ⟨?_, ?_, ?_, ?_⟩
  · intro j hj
    obtain ⟨c, hc⟩ := hb.called j (by rcases hframe with hf | hf <;> simp_all)
    exact ⟨c, by simp [hcalls, hc]⟩
  · intro n j hn
    obtain ⟨c, hc⟩ := hb.executed n j (by simpa [(he n j).symm] using hn)
    exact ⟨c, by simp [hc]⟩
  · simpa [Ne.symm hw] using hb.wild
  · intro hpos hs
    simp [hcalls, hst, hb.started (hcalls ▸ hpos) (hstage ▸ hs)]

theorem behind_moves {es : List (Event J)} {s s' : State J} {e : Event J}
    (hi : s.handoff.Inv) (hb : Behind es s) (hs : Moves cfg s e s') : Behind (es ++ [e]) s' := by
  cases hs with
  | rThread h hd hh => exact behind_rThread hi hb hh
  | main h ht hh =>
    obtain ⟨hcalls, hframe⟩ := mainStep_calls hh
    have hstage := mainStep_stage hi hh
    rcases mainEvent_cases s.handoff with he | he <;> rw [he] <;>
      exact hb.keep (by simp) (by simp) hcalls hframe hstage (by simp)
  | call j hm ht | testOneInput j hm ht =>
    refine ⟨?_, ?_, ?_, ?_⟩
    · intro j' hj'
      obtain rfl : j = j' := by simpa [Handoff.enter] using hj'
      exact ⟨_, List.mem_append_right _ (List.mem_singleton_self _)⟩
    · intro n j' hn
      obtain ⟨c, hc⟩ := hb.executed n j' (by simpa using hn)
      exact ⟨c, by simp [hc]⟩
    · simpa using hb.wild
    · simp [Handoff.enter, Handoff.stage, MainPc.posting]
  | alarm killFails letPass pc hl ht =>
    cases pc <;> simp only [alarmStep, State.goto] <;> (repeat' split) <;>
      exact hb.keep (by simp) (by simp) rfl (.inl rfl) rfl rfl
  | dump pc hd =>
    cases pc <;> exact hb.keep (by simp [dumpStep]) (by simp [dumpStep]) rfl (.inl rfl) rfl rfl
  | wakeMain h hh =>
    obtain ⟨hm, rfl⟩ := Handoff.wakeMain_eq hh
    exact hb.keep (by simp) (by simp) rfl (.inl rfl)
      (by simp [Handoff.stage, hm, MainPc.posting]) rfl
  | wakeRThread h hh =>
    obtain ⟨hr, rfl⟩ := Handoff.wakeR_eq hh
    exact hb.keep (by simp) (by simp) rfl (.inl rfl) (by simp [Handoff.stage, hr, RPc.stage]) rfl
  | fork hm ht =>
    have hjob := (hi.quiet (by simp [hm, MainPc.quiet])).1
    refine hb.keep (by simp) (by simp) ?_ (.inl ?_) ?_ rfl <;>
      by_cases ha : s.handoff.atforkRegistered = true <;>
      simp [Handoff.child, Handoff.forget, Handoff.stage, hm, hjob, ha, MainPc.posting]
  | advance | label | tick | deliverDump =>
    exact hb.keep (by simp) (by simp) rfl (.inl rfl) rfl rfl

theorem Run.behind {es : List (Event J)} {s : State J} (h : (system J cfg).Run es s) :
    Behind es s := by
  refine h.induct ?_ ?_
  · rintro s ⟨now, rfl⟩
    refine ⟨?_, ?_, ?_, ?_⟩ <;> simp [State.initial, Handoff.initial]
  · exact fun es s a e t hr hb hs => behind_moves (Run.inv hr).handoff hb (step_moves hs).2

theorem Run.calls_pos {es : List (Event J)} {s : State J} (h : (system J cfg).Run es s)
    (hm : s.handoff.main ≠ .outside) : 0 < s.handoff.calls := by
  obtain ⟨j, hj⟩ := Option.isSome_iff_exists.mp ((Run.inv h).handoff.frame.mpr hm)
  obtain ⟨c, hc⟩ := (Run.behind h).called j hj
  have hle := (Run.milestone_of_mem h hc rfl).1
  omega

theorem Run.started_of_entered {es : List (Event J)} {s : State J}
    (h : (system J cfg).Run es s) (he : s.handoff.Entered) :
    .started s.handoff.calls s.alarm.started ∈ es := by
  have hmw := he.1
  exact (Run.behind h).started (Run.calls_pos h fun hm => by simp [hm, MainPc.awaiting] at hmw)
    he.stage_pos

/-- While it is running, its end is not. -/
theorem Run.not_finished_of_inside {es : List (Event J)} {s : State J}
    (h : (system J cfg).Run es s) (hr : s.handoff.r.inside = true) :
    .finished s.handoff.calls ∉ es := by
  intro hf
  obtain ⟨hmw, hjob, -⟩ := (Run.inv h).handoff.fetched (RPc.fetched_of_inside hr)
  have hpost : s.handoff.main.posting = false := by
    cases hm : s.handoff.main <;> simp_all [MainPc.awaiting, MainPc.posting]
  have hle := (Run.milestone_of_mem h hf rfl).2
  cases hp : s.handoff.r <;>
    simp_all [Handoff.milestone, Handoff.stage, RPc.inside, RPc.stage]

theorem Run.runningSet_of_inside {es : List (Event J)} {s : State J}
    (h : (system J cfg).Run es s) (hr : s.handoff.r.inside = true) :
    .runningSet s.handoff.calls ∈ es := by
  obtain ⟨hmw, hjob, -⟩ := (Run.inv h).handoff.fetched (RPc.fetched_of_inside hr)
  have hpost := MainPc.posting_of_awaiting hmw
  have hcalls := Run.calls_pos h fun hm => by simp [hm, MainPc.awaiting] at hmw
  have hstage : 2 ≤ s.handoff.stage := by
    cases hp : s.handoff.r <;> simp_all [Handoff.stage, RPc.inside, RPc.stage]
  obtain ⟨e, he, hm⟩ := Run.mem_of_milestone h (m := 5 * s.handoff.calls + 2) (by omega)
    (Nat.add_le_add_left hstage _)
  cases e with
  | runningSet n =>
    obtain rfl : n = s.handoff.calls := by simpa [Event.milestone] using hm
    exact he
  | called | started | executed | finished =>
    simp only [Event.milestone, Option.some.injEq] at hm
    omega
  | _ => simp [Event.milestone] at hm

end TimeoutAlarm
end ROssFuzz
