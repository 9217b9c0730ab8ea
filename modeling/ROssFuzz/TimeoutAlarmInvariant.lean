import ROssFuzz.RThreadHandoffInvariant
import ROssFuzz.TimeoutAlarm

/-!
# Where a tick can find the two threads

`running` is set exactly while the R thread is inside the job. A tick that has seen it
set suspends the main thread inside its wait, so until the tick is over the R thread
can only finish this job; a tick that then sees it clear knows the job is over, and
`finishing` stays set no longer than the main thread needs to leave the wait.
-/

namespace ROssFuzz
open RThreadHandoff TransitionRuns

namespace RThreadHandoff

/-- The R thread is inside the job or past it, without having acknowledged it. -/
@[grind] def RPc.entered : RPc → Bool
  | .lock | .clearJob => true
  | r => r.inside

theorem RPc.fetched_of_inside {r : RPc} (h : r.inside = true) : r.fetched = true := by
  cases r <;> simp_all [RPc.inside, RPc.fetched]

/-- The job of the call in progress has been running, and the main thread waits. -/
@[grind] def Handoff.Entered {J : Type} (h : Handoff J) : Prop :=
  h.main.awaiting = true ∧ (h.r.entered = true ∨ h.job = none)

/-- The main thread is on its way out of the wait, or about to be. -/
@[grind] def MainPc.leaving : MainPc → Bool
  | .jobTest | .condWait | .relock | .unlock | .clearFinishing => true
  | _ => false

theorem MainPc.leaving_of_awaiting {p : MainPc} (h : p.awaiting = true) : p.leaving = true := by
  cases p <;> simp_all [MainPc.awaiting, MainPc.leaving]

/-- The job of the call in progress is over. -/
@[grind] def Handoff.Over {J : Type} (h : Handoff J) : Prop :=
  h.main.leaving = true ∧ (h.r = .lock ∨ h.r = .clearJob ∨ h.job = none)

namespace Handoff
variable {J : Type} {h h' : Handoff J}

theorem Entered.rStep (hi : h.Inv) (he : h.Entered) (hs : h.rStep = some h') : h'.Entered := by
  obtain ⟨hmw, hjob⟩ := he
  have hwait := hi.awaiting hmw
  cases rStep_moves hs <;> grind

theorem Over.rStep (hi : h.Inv) (ho : h.Over) (hs : h.rStep = some h') : h'.Over := by
  obtain ⟨hlv, hjob⟩ := ho
  have hquiet := hi.quiet
  have hwait := hi.awaiting
  cases rStep_moves hs <;> grind

/-- The main thread cannot leave a job that is over before it clears `finishing`. -/
theorem Over.mainStep (hi : h.Inv) (ho : h.Over) (hm : h.main ≠ .clearFinishing)
    (hs : h.mainStep = some h') : h'.Over := by
  obtain ⟨hlv, hjob⟩ := ho
  have hquiet := hi.quiet
  have hmutex := hi.mutex_main
  have hmutexR := hi.mutex_r
  cases mainStep_moves hs with
  | relock | jobDone | jobWait | unlock => grind
  | clearFinishing hp => exact absurd hp hm
  | _ hp => simp [hp, MainPc.leaving] at hlv

/-- Only its own statements move the R thread in or out of the job. -/
theorem mainStep_inside (hi : h.Inv) (hs : h.mainStep = some h') : h'.r.inside = h.r.inside := by
  have hstart := hi.started
  have hentry := hi.entry
  cases mainStep_moves hs <;> grind

theorem Over.not_inside (hi : h.Inv) (ho : h.Over) : h.r.inside = false := by
  by_contra hin
  obtain ⟨-, hr | hr | hjob⟩ := ho
  · simp [hr, RPc.inside] at hin
  · simp [hr, RPc.inside] at hin
  · have hjob' := (hi.fetched (RPc.fetched_of_inside (by simpa using hin))).2.1
    simp [hjob] at hjob'

/-- A job seen running and then not is over. -/
theorem Entered.over (he : h.Entered) (hin : h.r.inside = false) : h.Over := by
  obtain ⟨hmw, hjob⟩ := he
  refine ⟨MainPc.leaving_of_awaiting hmw, ?_⟩
  rcases hjob with hent | hj
  · cases hr : h.r <;> simp_all [RPc.entered, RPc.inside]
  · exact .inr (.inr hj)

theorem Entered.of_inside (hi : h.Inv) (hin : h.r.inside = true) : h.Entered := by
  refine ⟨(hi.fetched (RPc.fetched_of_inside hin)).1, .inl ?_⟩
  cases hr : h.r <;> simp_all [RPc.inside, RPc.entered]

/-- The R thread's own statements that set and clear `running`. -/
theorem rStep_inside (hs : h.rStep = some h') :
    h'.r.inside = if h.r = .setRunning then true
      else if h.r = .clearRunning then false else h.r.inside := by
  cases rStep_moves hs with
  | _ hr => simp [hr, RPc.inside]

theorem Over.wakeMain (ho : h.Over) (hs : h.wakeMain = some h') : h'.Over := by
  obtain ⟨-, rfl⟩ := wakeMain_eq hs
  exact ⟨rfl, ho.2⟩

theorem Over.wakeR (ho : h.Over) (hs : h.wakeR = some h') : h'.Over := by
  obtain ⟨hr, rfl⟩ := wakeR_eq hs
  exact ⟨ho.1, .inr (.inr (by simpa [hr] using ho.2))⟩

theorem Entered.wakeMain (he : h.Entered) (hs : h.wakeMain = some h') : h'.Entered := by
  obtain ⟨-, rfl⟩ := wakeMain_eq hs
  exact ⟨rfl, he.2⟩

theorem Entered.wakeR (he : h.Entered) (hs : h.wakeR = some h') : h'.Entered := by
  obtain ⟨hr, rfl⟩ := wakeR_eq hs
  exact ⟨he.1, .inr (by simpa [hr, RPc.entered, RPc.inside] using he.2)⟩

end Handoff
end RThreadHandoff

namespace TimeoutAlarm
variable {J : Type} {cfg : Config}

/-- The tick has seen this call's job running and is not yet over. -/
@[grind] def TickPc.engaged : TickPc → Bool
  | .finishingTest | .runningTest | .chain .idle => false
  | _ => true

structure Inv (s : State J) : Prop where
  handoff : s.handoff.Inv
  running : s.alarm.running = s.handoff.r.inside
  finishing : s.alarm.finishing = true → s.handoff.Over
  tick : ∀ pc, s.tick = some pc → pc.engaged = true → s.handoff.Entered
  store : s.tick = some .storeFinishing → s.handoff.Over
  dropped : s.tick = some .finishingTest → s.tickRunning = true → s.alarm.finishing = false

theorem inv_initial (now : Timespec) : Inv (State.initial now : State J) := by
  refine ⟨Handoff.inv_initial, rfl, ?_, ?_, ?_, ?_⟩ <;> simp [State.initial]

/-- While the R thread is inside an input, no tick is being told that it is over. -/
theorem Inv.not_finishing {s : State J} (hi : Inv s) (hr : s.alarm.running = true) :
    s.alarm.finishing = false := by
  by_contra hf
  have hover := hi.finishing (by simpa using hf)
  rw [hi.running, hover.not_inside hi.handoff] at hr
  simp at hr

theorem Inv.not_finishing_outside {s : State J} (hi : Inv s) (hm : s.handoff.main = .outside) :
    s.alarm.finishing = false := by
  by_contra hf
  have hover := (hi.finishing (by simpa using hf)).1
  simp [hm, MainPc.leaving] at hover

private theorem inv_main {s : State J} {h : Handoff J} (hi : Inv s) (ht : s.tick = none)
    (hh : s.handoff.mainStep = some h) :
    Inv { s with
      handoff := h
      alarm := mainEffect cfg s.handoff.main s.now s.alarm
      unit := if s.handoff.main = .ret then none else s.unit } := by
  refine ⟨Handoff.inv_mainStep hi.handoff hh, ?_, ?_, by simp [ht], by simp [ht], by simp [ht]⟩
  · simp only [mainEffect_running, hi.running, Handoff.mainStep_inside hi.handoff hh]
  · intro hf
    obtain ⟨hc, hfin⟩ : s.handoff.main ≠ .clearFinishing ∧ s.alarm.finishing = true := by
      simpa using hf
    exact (hi.finishing hfin).mainStep hi.handoff hc hh

private theorem inv_rThread {s : State J} {h : Handoff J} (hi : Inv s)
    (hh : s.handoff.rStep = some h) :
    Inv { s with
      handoff := h
      alarm := rEffect s.unit.isSome s.handoff.r s.now s.alarm } := by
  refine ⟨Handoff.inv_rStep hi.handoff hh, ?_, ?_, ?_, ?_, ?_⟩
  · simp only [rEffect_running, hi.running, Handoff.rStep_inside hh]
  · simp only [rEffect_finishing]
    exact fun hf => (hi.finishing hf).rStep hi.handoff hh
  · exact fun pc hpc hen => (hi.tick pc hpc hen).rStep hi.handoff hh
  · exact fun ht => (hi.store ht).rStep hi.handoff hh
  · simp only [rEffect_finishing]
    exact hi.dropped

/-- The handler's statements leave the handoff alone, and set `finishing` in one place. -/
private theorem inv_alarm {s : State J} {killFails letPass : Bool} {pc : TickPc}
    (hi : Inv s) (ht : s.tick = some pc) : Inv (alarmStep cfg killFails letPass s pc).2 := by
  have hen := hi.tick pc ht
  have hstore : pc = .storeFinishing → s.handoff.Over := fun h => hi.store (h ▸ ht)
  obtain ⟨hh, hrun, hfin, -, -, -⟩ := hi
  cases pc with
  | finishingTest =>
    simp only [alarmStep]
    split <;> exact ⟨hh, hrun, hfin, by simp [State.goto, TickPc.engaged],
      by simp [State.goto], by simp [State.goto]⟩
  | runningTest =>
    simp only [alarmStep]
    split
    · -- the one way in: the job has been seen running
      rename_i hr
      have hent := Handoff.Entered.of_inside hh (hrun ▸ hr)
      exact ⟨hh, hrun, hfin, fun _ _ _ => hent, by simp [State.goto], by simp [State.goto]⟩
    · exact ⟨hh, hrun, hfin, by simp [State.goto, TickPc.engaged],
        by simp [State.goto], by simp [State.goto]⟩
  | runningLook age =>
    have hent := hen rfl
    simp only [alarmStep]
    split
    · refine ⟨hh, hrun, hfin, fun _ _ _ => hent, ?_, ?_⟩ <;> dsimp only <;> split <;> simp
    · rename_i hr
      have hover := hent.over (by rw [← hrun]; simpa using hr)
      exact ⟨hh, hrun, hfin, fun _ _ _ => hent, fun _ => hover, by simp [State.goto]⟩
  | storeFinishing =>
    exact ⟨hh, hrun, fun _ => hstore rfl, by simp [alarmStep], by simp [alarmStep],
      by simp [alarmStep]⟩
  | chain route =>
    exact ⟨hh, hrun, hfin, by simp [alarmStep], by simp [alarmStep], by simp [alarmStep]⟩
  | _ =>
    have hent := hen rfl
    simp only [alarmStep, State.goto]
    (repeat' split) <;> exact ⟨hh, hrun, hfin, fun _ _ _ => hent, by simp, by simp⟩

/-- Every step keeps the invariant. -/
theorem inv_moves {s s' : State J} {e : Event J} (hi : Inv s) (hs : Moves cfg s e s') :
    Inv s' := by
  cases hs with
  | main h ht hh => exact inv_main hi ht hh
  | rThread h hd hh => exact inv_rThread hi hh
  | alarm killFails letPass pc hl ht => exact inv_alarm hi ht
  | call j hm ht | testOneInput j hm ht =>
    have hfin := hi.not_finishing_outside hm
    refine ⟨Handoff.inv_enter hi.handoff hm j (by simp), hi.running, ?_, ?_, ?_, ?_⟩ <;>
      simp [ht, hfin]
  | tick ht hw =>
    exact ⟨hi.handoff, hi.running, hi.finishing, by simp [TickPc.engaged], by simp,
      fun _ htr => hi.not_finishing htr⟩
  | dump pc hd =>
    cases pc <;> exact ⟨hi.handoff, hi.running, hi.finishing, hi.tick, hi.store, hi.dropped⟩
  | wakeMain h hh =>
    refine ⟨Handoff.inv_wakeMain hi.handoff hh, ?_, fun hf => (hi.finishing hf).wakeMain hh,
      fun pc hpc hen => (hi.tick pc hpc hen).wakeMain hh, fun ht => (hi.store ht).wakeMain hh,
      hi.dropped⟩
    rw [(Handoff.wakeMain_eq hh).2]
    exact hi.running
  | wakeRThread h hh =>
    refine ⟨Handoff.inv_wakeR hi.handoff hh, ?_, fun hf => (hi.finishing hf).wakeR hh,
      fun pc hpc hen => (hi.tick pc hpc hen).wakeR hh, fun ht => (hi.store ht).wakeR hh,
      hi.dropped⟩
    obtain ⟨hr, rfl⟩ := Handoff.wakeR_eq hh
    simpa [hr, RPc.inside] using hi.running
  | fork hm ht =>
    have hquiet := (hi.handoff.quiet (by simp [hm, MainPc.quiet])).2
    have hrun : s.alarm.running = false := by
      rw [hi.running]
      cases hr : s.handoff.r <;> simp_all [RPc.idle, RPc.inside]
    have hfin := hi.not_finishing_outside hm
    refine ⟨Handoff.inv_child hi.handoff hm, ?_, ?_, ?_, ?_, ?_⟩ <;>
      simp [ht, hfin, hrun, Handoff.child, RPc.inside]
  | advance | label | deliverDump =>
    exact ⟨hi.handoff, hi.running, hi.finishing, hi.tick, hi.store, hi.dropped⟩

theorem Run.inv {es : List (Event J)} {s : State J} (h : (system J cfg).Run es s) : Inv s := by
  refine h.invariant ?_ ?_
  · rintro s ⟨now, rfl⟩
    exact inv_initial now
  · exact fun s a e t hi hs => inv_moves hi (step_moves hs).2

end TimeoutAlarm
end ROssFuzz
