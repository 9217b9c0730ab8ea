import ROssFuzz.ChargedSchedules
import ROssFuzz.ExactlyOnceHandoff

/-!
# Every call returns

How many statements are left to the two threads is a potential of the handoff: a call brings in at
most 34, a spurious wake-up two more, and each statement takes one away. A tick and the dump that
it may ask for come to an end in the same way; only the hold of an input that is still within
its time goes on, three statements for each reading of the input's age. Since somebody can go on
as long as there is a call, a tick or a dump, this is where every schedule ends.
-/

namespace ROssFuzz
open RThreadHandoff TransitionRuns

namespace RThreadHandoff

/-- What is left of the call once its job is done. -/
def MainPc.left : MainPc → ℕ
  | .outside => 0
  | .alarmWrap => 17
  | .startedTest => 16
  | .atfork => 15
  | .create => 14
  | .setStarted => 13
  | .bumpInput => 12
  | .skipZero => 11
  | .lock => 10
  | .postJob => 9
  | .postBroadcast => 8
  | .jobTest => 5
  | .condWait | .relock => 6
  | .unlock => 4
  | .clearFinishing => 3
  | .readArmed => 2
  | .ret => 1

/-- What is left to the R thread until it waits, if it gets no job. -/
def RPc.left : RPc → ℕ
  | .absent | .condWait => 0
  | .jobTest => 1
  | .firstLock | .relock | .ackBroadcast => 2
  | .clearJob => 3
  | .lock => 4
  | .clearRunning => 5
  | .labelClear => 6
  | .runJob => 7
  | .labelReset => 8
  | .readJob => 9
  | .setRunning => 10
  | .readStarted => 11
  | .unlock => 12
  | .takeJob => 13

namespace Handoff
variable {J : Type}

/-- The main thread finds its job posted once more before it waits. -/
def rewait (h : Handoff J) : ℕ :=
  if h.job ≠ none ∧ (h.main = .jobTest ∨ h.main = .relock) then 2 else 0

/-- The job that an idle R thread is still to get. -/
def due (h : Handoff J) : ℕ :=
  if h.r.idle = false then 0
  else if h.job ≠ none then if h.r = .condWait then 15 else 13
  else if h.main.posting then if h.r = .absent then 17 else 15
  else 0

def left (h : Handoff J) : ℕ := h.main.left + h.rewait + (h.r.left + h.due)

theorem left_mainStep {h h' : Handoff J} (hi : h.Inv) (hs : h.mainStep = some h') :
    h'.left < h.left := by
  have hposted := hi.posted
  have hquiet := hi.quiet
  have habsent := hi.present
  cases mainStep_moves hs with
  | create hm =>
    -- there was no R thread
    have hr : h.r = .absent :=
      (hi.started (hi.entry (by simp [hm]))).resolve_right (by simp [hm])
    have hj := (hquiet (by simp [hm, MainPc.quiet])).1
    simp [left, rewait, due, MainPc.left, RPc.left, RPc.idle, MainPc.posting, hm, hr, hj]
  | postBroadcast hm =>
    obtain ⟨hj, hr⟩ := hposted hm
    cases hr' : h.r <;> simp_all [left, rewait, due, MainPc.left, RPc.left, RPc.idle]
  | jobWait hm hj =>
    cases hr : h.r <;> simp_all [left, rewait, due, MainPc.left, RPc.left, RPc.idle]
  | jobDone hm | relock hm =>
    by_cases hjob : h.job = none <;> cases hr : h.r <;>
      simp_all [left, rewait, due, MainPc.left, RPc.left, RPc.idle, MainPc.posting]
  | _ hm =>
    obtain ⟨hj, hr⟩ := hquiet (by simp [hm, MainPc.quiet])
    cases hr' : h.r <;>
      simp_all [left, rewait, due, MainPc.left, RPc.left, RPc.idle, MainPc.posting]

theorem left_rStep {h h' : Handoff J} (hi : h.Inv) (hs : h.rStep = some h') : h'.left < h.left := by
  have hwait := hi.awaiting_of_not_idle
  cases rStep_moves hs with
  | firstLock hr | relock hr | jobWait hr | jobFound hr =>
    by_cases hjob : h.job = none <;>
      simp_all [left, rewait, due, RPc.left, RPc.idle]
  | clearJob hr =>
    have hrewait : rewait { h with r := .ackBroadcast, job := none } = 0 := by simp [rewait]
    have hdue : due { h with r := .ackBroadcast, job := none } = 0 := by
      simp [due, RPc.idle]
    simp only [left, RPc.left, hr, hrewait, hdue]
    omega
  | ackBroadcast hr =>
    -- the job is done, and the main thread has seen it posted for the last time
    obtain ⟨hmain, hposted | ⟨hj, -⟩⟩ := hwait (by simp [hr, RPc.idle])
    · simp [hr, RPc.idle, RPc.fetched] at hposted
    · have hpost := MainPc.posting_of_awaiting hmain
      cases hm : h.main <;>
        simp_all [left, rewait, due, MainPc.left, RPc.left, RPc.idle, MainPc.awaiting,
          MainPc.posting]
  | _ hr => simp [left, rewait, due, RPc.left, RPc.idle, hr]

theorem left_wakeMain {h h' : Handoff J} (hs : h.wakeMain = some h') : h'.left ≤ h.left + 2 := by
  obtain ⟨hm, rfl⟩ := wakeMain_eq hs
  simp only [left, rewait, due, MainPc.left, MainPc.posting, hm]
  split
  · simp
    omega
  · simp

theorem left_wakeR {h h' : Handoff J} (hs : h.wakeR = some h') : h'.left ≤ h.left + 2 := by
  obtain ⟨hr, rfl⟩ := wakeR_eq hs
  simp only [left, rewait, due, RPc.left, RPc.idle, hr]
  (repeat' split) <;> simp_all

theorem left_enter {h : Handoff J} (hi : h.Inv) (hm : h.main = .outside) (j : J) {entry : MainPc}
    (he : entry = .alarmWrap ∨ entry = .startedTest) : (h.enter entry j).left ≤ h.left + 34 := by
  obtain ⟨hj, hr⟩ := hi.quiet (by simp [hm, MainPc.quiet])
  rcases he with rfl | rfl <;> cases hr' : h.r <;>
    simp_all [left, rewait, due, enter, MainPc.left, RPc.left, RPc.idle, MainPc.posting]

theorem left_child {h : Handoff J} (hi : h.Inv) (hm : h.main = .outside) : h.child.left = 0 := by
  obtain ⟨hj, -⟩ := hi.quiet (by simp [hm, MainPc.quiet])
  by_cases ha : h.atforkRegistered = true <;>
    simp [left, rewait, due, child, forget, MainPc.left, RPc.left, MainPc.posting, hm, hj, ha]

end Handoff
end RThreadHandoff

namespace TimeoutAlarm
variable {J : Type} {cfg : Config}

/-- A statement of one of these. -/
def Action.ofActors (actors : List Actor) (a : Action J) : Bool := a.actor.any actors.contains

def Action.calls : Action J → Bool
  | .call _ | .testOneInput _ => true
  | _ => false

/-- A spurious wake-up. -/
def Action.wakes : Action J → Bool
  | .wakeMain | .wakeRThread => true
  | _ => false

def Action.ticks : Action J → Bool
  | .tick => true
  | _ => false

def Event.readsAge : Event J → Bool
  | .ageRead _ _ => true
  | _ => false

/-! ### The two threads -/

private theorem threads_charged {s t : State J} {a : Action J} {e : Event J} (hi : Inv s)
    (hs : (system J cfg).step s a = some (e, t)) : Inv t ∧
      (if a.ofActors [.main, .rThread] then 1 else 0) + t.handoff.left ≤ s.handoff.left +
        ((if a.calls then 34 else 0) + (if a.wakes then 2 else 0)) + 0 := by
  have hhandoff := hi.handoff
  refine ⟨inv_moves hi (step_moves hs).2, ?_⟩
  replace hs := (Option.ite_none_left_eq_some.mp hs).2
  cases a <;> simp only [liveStep, Option.ite_none_right_eq_some, Option.ite_none_left_eq_some,
    Option.map_eq_some_iff, Option.some.injEq, Prod.mk.injEq, mainStep, rStep] at hs
  case main =>
    obtain ⟨-, h, hh, -, rfl⟩ := hs
    have hleft := Handoff.left_mainStep hhandoff hh
    simp [Action.ofActors, Action.actor, Action.calls, Action.wakes]
    omega
  case rThread =>
    obtain ⟨-, h, hh, -, rfl⟩ := hs
    have hleft := Handoff.left_rStep hhandoff hh
    simp [Action.ofActors, Action.actor, Action.calls, Action.wakes]
    omega
  case call j =>
    obtain ⟨⟨hm, -⟩, -, rfl⟩ := hs
    exact Nat.le_trans (Nat.le_of_eq (Nat.zero_add _)) (Handoff.left_enter hhandoff hm j (.inr rfl))
  case testOneInput j =>
    obtain ⟨⟨hm, -⟩, -, rfl⟩ := hs
    exact Nat.le_trans (Nat.le_of_eq (Nat.zero_add _)) (Handoff.left_enter hhandoff hm j (.inl rfl))
  case wakeMain =>
    obtain ⟨h, hh, -, rfl⟩ := hs
    simpa [Action.ofActors, Action.actor, Action.calls, Action.wakes] using Handoff.left_wakeMain hh
  case wakeRThread =>
    obtain ⟨h, hh, -, rfl⟩ := hs
    simpa [Action.ofActors, Action.actor, Action.calls, Action.wakes] using Handoff.left_wakeR hh
  case fork =>
    obtain ⟨⟨hm, -⟩, -, rfl⟩ := hs
    simp [Handoff.left_child hhandoff hm, Action.ofActors, Action.actor]
  case alarm =>
    obtain ⟨-, pc, -, hpc⟩ := hs
    obtain rfl : _ = t := congrArg Prod.snd hpc
    simp [Action.ofActors, Action.actor]
  case dump =>
    obtain ⟨pc, -, hpc⟩ := hs
    obtain rfl : _ = t := congrArg Prod.snd hpc
    cases pc <;> simp [dumpStep, Action.ofActors, Action.actor]
  case advance | label | tick | deliverDump =>
    obtain ⟨-, -, rfl⟩ := hs
    simp [Action.ofActors, Action.actor]

/-! ### The handlers -/

/-- What is left of a tick when it holds no more. A reading of the age is for three statements. -/
def TickPc.left : TickPc → ℕ
  | .finishingTest => 15011
  | .runningTest => 15010
  | .armedTest => 15009
  | .readAge => 15008
  | .runningLook _ => 15010
  | .nanosleep => 15009
  | .storeFinishing => 1
  | .loadInput => 15008
  | .requestedTest _ => 15007
  | .storeRequested _ => 15006
  | .writeHeader _ => 15005
  | .killRThread _ => 15004
  | .storeDone _ => 15003
  | .doneTest _ i => 3 * (5000 - i) + 2
  | .stillRunningTest _ i => 3 * (4999 - i) + 4
  | .waitNanosleep _ i => 3 * (4999 - i) + 3
  | .chain _ => 1

/-- What is left of the dump that a tick may still ask for. -/
def TickPc.dumpLeft : TickPc → ℕ
  | .storeDone _ | .doneTest _ _ | .stillRunningTest _ _ | .waitNanosleep _ _ | .chain _ => 0
  | _ => 4

def DumpPc.left : DumpPc → ℕ
  | .loadRequested => 4
  | .loadLabel _ => 3
  | .print _ _ => 2
  | .storeDone _ => 1

def State.tickLeft (s : State J) : ℕ := (s.tick.map TickPc.left).getD 0

/-- What is left of the dump that is going on, of those that have been asked for and of the next
one. -/
def State.dumpLeft (s : State J) : ℕ :=
  (s.dump.map DumpPc.left).getD 0 + 4 * s.pending + (s.tick.map TickPc.dumpLeft).getD 0

theorem tickLeft_alarmStep (cfg : Config) (killFails letPass : Bool) {s : State J}
    {pc : TickPc} (ht : s.tick = some pc) :
    1 + (alarmStep cfg killFails letPass s pc).2.tickLeft ≤ s.tickLeft +
      if (alarmStep cfg killFails letPass s pc).1.readsAge then 3 else 0 := by
  have hleft : s.tickLeft = pc.left := by simp [State.tickLeft, ht]
  rw [hleft]
  cases pc <;> simp only [alarmStep, State.goto] <;> (repeat' split) <;>
    simp only [State.tickLeft, Option.map_some, Option.map_none, Option.getD_some, Option.getD_none,
      TickPc.left, Event.readsAge, Bool.false_eq_true, if_true, if_false] <;> omega

private theorem dumpLeft_alarmStep (cfg : Config) (killFails letPass : Bool) {s : State J}
    {pc : TickPc} (ht : s.tick = some pc) :
    (alarmStep cfg killFails letPass s pc).2.dumpLeft ≤ s.dumpLeft := by
  cases pc with
  | killRThread k =>
    simp only [alarmStep, State.goto, State.dumpLeft, ht]
    (repeat' split) <;> simp [TickPc.dumpLeft]
    omega
  | _ =>
    simp only [alarmStep, State.goto, State.dumpLeft, ht]
    (repeat' split) <;> simp [TickPc.dumpLeft]

private theorem tick_charged {s t : State J} {a : Action J} {e : Event J}
    (hs : (system J cfg).step s a = some (e, t)) :
    (if a.ofActors [.alarm] then 1 else 0) + t.tickLeft ≤ s.tickLeft +
      (if a.ticks then 15011 else 0) + if e.readsAge then 3 else 0 := by
  replace hs := (Option.ite_none_left_eq_some.mp hs).2
  cases a <;> simp only [liveStep, Option.ite_none_right_eq_some, Option.ite_none_left_eq_some,
    Option.map_eq_some_iff, Option.some.injEq, Prod.mk.injEq, mainStep, rStep] at hs
  case alarm killFails letPass =>
    obtain ⟨-, pc, ht, hpc⟩ := hs
    have hleft := tickLeft_alarmStep cfg killFails letPass ht
    rw [hpc] at hleft
    simpa [Action.ofActors, Action.actor, Action.ticks] using hleft
  case tick =>
    obtain ⟨⟨ht, -⟩, -, rfl⟩ := hs
    simp [Action.ofActors, Action.actor, Action.ticks, State.tickLeft, TickPc.left, ht]
  case main | rThread =>
    obtain ⟨-, h, -, -, rfl⟩ := hs
    simp [Action.ofActors, Action.actor, Action.ticks, State.tickLeft]
  case wakeMain | wakeRThread =>
    obtain ⟨h, -, -, rfl⟩ := hs
    simp [Action.ofActors, Action.actor, Action.ticks, State.tickLeft]
  case dump =>
    obtain ⟨pc, -, hpc⟩ := hs
    obtain rfl : _ = t := congrArg Prod.snd hpc
    cases pc <;> simp [dumpStep, Action.ofActors, Action.actor, Action.ticks, State.tickLeft]
  case call | testOneInput | advance | label | deliverDump | fork =>
    obtain ⟨-, -, rfl⟩ := hs
    simp [Action.ofActors, Action.actor, Action.ticks, State.tickLeft]

private theorem dump_charged {s t : State J} {a : Action J} {e : Event J}
    (hs : (system J cfg).step s a = some (e, t)) :
    (if a.ofActors [.dump] then 1 else 0) + t.dumpLeft ≤ s.dumpLeft +
      (if a.ticks then 4 else 0) + 0 := by
  replace hs := (Option.ite_none_left_eq_some.mp hs).2
  cases a <;> simp only [liveStep, Option.ite_none_right_eq_some, Option.ite_none_left_eq_some,
    Option.map_eq_some_iff, Option.some.injEq, Prod.mk.injEq, mainStep, rStep] at hs
  case alarm killFails letPass =>
    obtain ⟨-, pc, ht, hpc⟩ := hs
    have hleft := dumpLeft_alarmStep cfg killFails letPass ht
    rw [hpc] at hleft
    simpa [Action.ofActors, Action.actor, Action.ticks] using hleft
  case tick =>
    obtain ⟨⟨ht, -⟩, -, rfl⟩ := hs
    simp [Action.ofActors, Action.actor, Action.ticks, State.dumpLeft, TickPc.dumpLeft, ht]
  case deliverDump =>
    obtain ⟨⟨hd, hpending, -⟩, -, rfl⟩ := hs
    simp [Action.ofActors, Action.actor, State.dumpLeft, DumpPc.left, hd]
    omega
  case dump =>
    obtain ⟨pc, hd, hpc⟩ := hs
    obtain rfl : _ = t := congrArg Prod.snd hpc
    cases pc <;>
      simp [dumpStep, Action.ofActors, Action.actor, Action.ticks, State.dumpLeft, DumpPc.left,
        hd] <;> omega
  case fork =>
    obtain ⟨⟨-, ht⟩, -, rfl⟩ := hs
    simp [Action.ofActors, Action.actor, State.dumpLeft, ht]
  case main | rThread =>
    obtain ⟨-, h, -, -, rfl⟩ := hs
    simp [Action.ofActors, Action.actor, State.dumpLeft]
  case wakeMain | wakeRThread =>
    obtain ⟨h, -, -, rfl⟩ := hs
    simp [Action.ofActors, Action.actor, State.dumpLeft]
  case call | testOneInput | advance | label =>
    obtain ⟨-, -, rfl⟩ := hs
    simp [Action.ofActors, Action.actor, State.dumpLeft]

/-! ### Where a schedule ends -/

/-- Every call has returned, but for the latest while it is in progress. -/
def Returned (es : List (Event J)) (s : State J) : Prop :=
  ∀ n j c, .called n j c ∈ es → .returned n ∈ es ∨ n = s.handoff.calls ∧ s.handoff.main ≠ .outside

private theorem Returned.keep {es : List (Event J)} {s t : State J} (h : Returned es s)
    {e : Event J}
    (he : ∀ n j c, e ≠ .called n j c) (hcalls : t.handoff.calls = s.handoff.calls)
    (hmain : s.handoff.main ≠ .outside →
      t.handoff.main ≠ .outside ∨ e = .returned s.handoff.calls) :
    Returned (es ++ [e]) t := by
  intro n j c hn
  rcases List.mem_append.mp hn with hn | hn
  · rcases h n j c hn with hret | ⟨rfl, hm⟩
    · exact .inl (List.mem_append_left _ hret)
    · rcases hmain hm with hin | rfl
      · exact .inr ⟨hcalls.symm, hin⟩
      · exact .inl (by simp)
  · exact absurd (List.mem_singleton.mp hn).symm (he n j c)

/-- A call is made from outside, so the one before it has returned. -/
private theorem Returned.enter {es : List (Event J)} {s t : State J} (h : Returned es s)
    (hm : s.handoff.main = .outside) (hmain : t.handoff.main ≠ .outside) (j : J) (c : Caller) :
    t.handoff.calls = s.handoff.calls + 1 →
      Returned (es ++ [.called (s.handoff.calls + 1) j c]) t := by
  intro hcalls n j' c' hn
  rcases List.mem_append.mp hn with hn | hn
  · rcases h n j' c' hn with hret | ⟨-, hin⟩
    · exact .inl (List.mem_append_left _ hret)
    · exact absurd hm hin
  · obtain ⟨rfl, -, -⟩ : n = s.handoff.calls + 1 ∧ j' = j ∧ c' = c := by simpa using hn
    exact .inr ⟨hcalls.symm, hmain⟩

private theorem mainStep_returns {h h' : Handoff J} (hs : h.mainStep = some h') :
    h'.main ≠ .outside ∨ mainEvent h = .returned h.calls := by
  cases Handoff.mainStep_moves hs with
  | ret hm => exact .inr (by simp [mainEvent, hm])
  | _ => exact .inl (by simp)

private theorem returned_moves {es : List (Event J)} {s t : State J} {e : Event J}
    (hi : Returned es s) (hs : Moves cfg s e t) : Returned (es ++ [e]) t := by
  cases hs with
  | call j hm => exact hi.enter hm (by simp [Handoff.enter]) j _ rfl
  | testOneInput j hm => exact hi.enter hm (by simp [Handoff.enter]) j _ rfl
  | main h _ hh =>
    refine hi.keep (fun n j c => ?_) (mainStep_calls hh).1 fun _ => mainStep_returns hh
    rcases mainEvent_cases s.handoff with he | he <;> simp [he]
  | rThread h _ hh =>
    refine hi.keep (fun n j c he => ?_) (rStep_calls hh).1 fun hm => .inl ?_
    · have hactor := rEvent_actor s.handoff s.now
      rw [he] at hactor
      cases hactor
    · rcases rStep_main hh with hsame | ⟨-, hwoken⟩
      · simpa [hsame] using hm
      · simp [hwoken]
  | alarm killFails letPass pc =>
    refine hi.keep (fun n j c he => ?_) (by simp) fun hm => .inl (by simpa using hm)
    have hactor := alarmStep_actor cfg killFails letPass s pc
    rw [he] at hactor
    cases hactor
  | dump pc => cases pc <;> exact hi.keep (by simp [dumpStep]) rfl .inl
  | wakeMain h hh =>
    obtain ⟨-, rfl⟩ := Handoff.wakeMain_eq hh
    exact hi.keep (by simp) rfl (by simp)
  | wakeRThread h hh =>
    obtain ⟨-, rfl⟩ := Handoff.wakeR_eq hh
    exact hi.keep (by simp) rfl .inl
  | fork hm =>
    refine hi.keep (by simp) ?_ fun hin => absurd hm hin
    simp only [Handoff.child, Handoff.forget]
    split <;> rfl
  | advance | label | tick | deliverDump => exact hi.keep (by simp) rfl .inl

theorem Run.returned {es : List (Event J)} {s : State J} (h : (system J cfg).Run es s) :
    Returned es s := by
  refine h.induct ?_ fun es s a e t _ hi hs => returned_moves hi (step_moves hs).2
  rintro s ⟨now, rfl⟩ n j c hn
  cases hn

/-- While there is a call, a tick or a dump somebody can go on. -/
private theorem settled {es : List (Event J)} {s : State J} (h : (system J cfg).Run es s)
    (hx : s.exited = false)
    (hstuck : ¬ Enabled cfg s [.main, .rThread, .alarm false false, .dump]) :
    s.tick = none ∧ s.dump = none ∧ s.handoff.main = .outside := by
  have htick : s.tick = none := by
    by_contra hne
    obtain ⟨pc, hpc⟩ := Option.ne_none_iff_exists'.mp hne
    exact hstuck ⟨.alarm false false, by simp, by simp [step, liveStep, hx, hpc]⟩
  have hdump : s.dump = none := by
    by_contra hne
    obtain ⟨pc, hpc⟩ := Option.ne_none_iff_exists'.mp hne
    exact hstuck ⟨.dump, by simp, by simp [step, liveStep, hx, hpc]⟩
  refine ⟨htick, hdump, ?_⟩
  by_contra hm
  have hgo := (Run.handsOff h).progress hx hm
  rw [if_pos htick] at hgo
  obtain ⟨a, ha, hstep⟩ := hgo
  refine hstuck ⟨a, ?_, hstep⟩
  rcases List.mem_cons.mp ha with rfl | ha
  · simp
  · rcases List.mem_cons.mp ha with rfl | ha
    · simp
    · obtain rfl := List.mem_singleton.mp ha
      simp

/-- However the two threads, the ticks and the dumps are interleaved: the threads execute at most
34 statements for each call and two for each spurious wake-up, a tick at most 15011 and three for
each time that it reads the input's age, and there are at most four statements of a dump for each
tick. Where none of them can go on, every call has returned and no handler is left behind. -/
theorem calls_return {now : Timespec} {as : List (Action J)} {es : List (Event J)} {s : State J}
    (h : (system J cfg).exec (.initial now) as = some (es, s)) :
    as.countP (Action.ofActors [.main, .rThread]) ≤
      34 * as.countP Action.calls + 2 * as.countP Action.wakes ∧
    as.countP (Action.ofActors [.alarm]) ≤
      15011 * as.countP Action.ticks + 3 * es.countP Event.readsAge ∧
    as.countP (Action.ofActors [.dump]) ≤ 4 * as.countP Action.ticks ∧
    (s.exited = false → ¬ Enabled cfg s [.main, .rThread, .alarm false false, .dump] →
      s.tick = none ∧ s.dump = none ∧ s.handoff.main = .outside ∧
        ∀ n j c, .called n j c ∈ es → .returned n ∈ es) := by
  have hrun : (system J cfg).Run es s := .of_exec_init ⟨now, rfl⟩ h
  refine ⟨?_, ?_, ?_, fun hx hstuck => ?_⟩
  · have hcount := System.exec_charges (fun s => s.handoff.left) (Action.ofActors [.main, .rThread])
      _ (fun _ => 0) (fun _ _ _ _ => threads_charged) h (inv_initial now)
    have hzero : (State.initial now : State J).handoff.left = 0 := rfl
    simp only [List.sum_map_add, sum_map_ite, List.map_const', List.sum_replicate, nsmul_zero,
      hzero] at hcount
    omega
  · have hcount := System.exec_charges State.tickLeft (Action.ofActors [.alarm]) _ _
      (fun _ _ _ _ (_ : True) hs => ⟨trivial, tick_charged hs⟩) h trivial
    have hzero : (State.initial now : State J).tickLeft = 0 := rfl
    simp only [sum_map_ite, hzero] at hcount
    omega
  · have hcount := System.exec_charges State.dumpLeft (Action.ofActors [.dump]) _ (fun _ => 0)
      (fun _ _ _ _ (_ : True) hs => ⟨trivial, dump_charged hs⟩) h trivial
    have hzero : (State.initial now : State J).dumpLeft = 0 := rfl
    simp only [sum_map_ite, List.map_const', List.sum_replicate, nsmul_zero, hzero] at hcount
    omega
  · obtain ⟨htick, hdump, hm⟩ := settled hrun hx hstuck
    refine ⟨htick, hdump, hm, fun n j c hn => ?_⟩
    exact (Run.returned hrun n j c hn).resolve_right fun hlast => hlast.2 hm

/-- The first input of a process, with the R thread asleep by the time that the job is posted. -/
def oneInputSchedule : List (Action Unit) := List.flatten
  [[.testOneInput ()], .replicate 5 .main, .replicate 2 .rThread, .replicate 6 .main,
    .replicate 15 .rThread, .replicate 6 .main]

theorem calls_return_one : ∃ es s,
    (system Unit threeSeconds).exec (.initial (.second 10)) oneInputSchedule = some (es, s) ∧
    oneInputSchedule.countP (Action.ofActors [.main, .rThread]) = 34 ∧
    ∀ n j c, .called n j c ∈ es → .returned n ∈ es := by
  have hruns : ((system Unit threeSeconds).exec (.initial (.second 10)) oneInputSchedule).isSome =
      true := by
    decide +kernel
  obtain ⟨⟨es, s⟩, h⟩ := Option.isSome_iff_exists.mp hruns
  have hsettled : ((system Unit threeSeconds).exec (.initial (.second 10)) oneInputSchedule).map
      (fun r => (r.2.exited, [Action.main, .rThread, .alarm false false, .dump].map
        fun a => (step threeSeconds r.2 a).isSome)) =
      some (false, [false, false, false, false]) := by
    decide +kernel
  rw [h] at hsettled
  simp only [Option.map_some, Option.some.injEq, Prod.mk.injEq] at hsettled
  obtain ⟨hx, hstuck⟩ := hsettled
  refine ⟨es, s, h, by decide, ((calls_return h).2.2.2 hx ?_).2.2.2⟩
  rintro ⟨a, ha, hstep⟩
  have hnone := hstuck ▸ List.mem_map_of_mem ha
  simp [hstep] at hnone

end TimeoutAlarm
end ROssFuzz
