import ROssFuzz.RThreadHandoff

/-!
# The handoff's invariant

Each thread's counter says whether it owns the mutex and which half of the handoff it
stands in. The invariant ties the two counters to the `job` field: outside the wait the
field is null and the R thread is looking for work, and during the wait the field is
either this call's job on its way to the R thread, or null with a wake-up of the main
thread still to come.
-/

namespace ROssFuzz.RThreadHandoff

/-- The main thread owns the mutex. -/
@[grind] def MainPc.critical : MainPc → Bool
  | .postJob | .postBroadcast | .jobTest | .unlock => true
  | _ => false

/-- The main thread is in the loop that waits for the job to be done. -/
@[grind] def MainPc.awaiting : MainPc → Bool
  | .jobTest | .condWait | .relock => true
  | _ => false

/-- No job of the main thread's is posted. -/
@[grind] def MainPc.quiet : MainPc → Bool
  | .postBroadcast | .jobTest | .condWait | .relock => false
  | _ => true

/-- The call has not yet made sure of an R thread. -/
@[grind] def MainPc.starting : MainPc → Bool
  | .outside | .alarmWrap | .startedTest | .atfork | .create => true
  | _ => false

/-- The R thread owns the mutex. -/
@[grind] def RPc.critical : RPc → Bool
  | .jobTest | .takeJob | .unlock | .clearJob | .ackBroadcast => true
  | _ => false

/-- The R thread, if there is one, is looking for a job. -/
@[grind] def RPc.idle : RPc → Bool
  | .absent | .firstLock | .jobTest | .condWait | .relock => true
  | _ => false

/-- The R thread holds the pointer to a job it has not acknowledged. -/
@[grind] def RPc.fetched : RPc → Bool
  | .absent | .firstLock | .jobTest | .condWait | .relock | .takeJob | .ackBroadcast => false
  | _ => true

/-- `fuzz_alarm.running` is set. -/
@[grind] def RPc.inside : RPc → Bool
  | .readJob | .labelReset | .runJob | .labelClear | .clearRunning => true
  | _ => false

namespace Handoff
variable {J : Type}

/-- What a statement of the main thread can do. -/
inductive MainMoves (h : Handoff J) : Handoff J → Prop
  | alarmWrap (hm : h.main = .alarmWrap) : MainMoves h { h with main := .startedTest }
  | started (hm : h.main = .startedTest) (hst : h.started = true) :
      MainMoves h { h with main := .bumpInput }
  | registered (hm : h.main = .startedTest) (hst : h.started = false)
      (ha : h.atforkRegistered = true) : MainMoves h { h with main := .create }
  | unregistered (hm : h.main = .startedTest) (hst : h.started = false)
      (ha : h.atforkRegistered = false) : MainMoves h { h with main := .atfork }
  | atfork (hm : h.main = .atfork) :
      MainMoves h { h with atforkRegistered := true, main := .create }
  | create (hm : h.main = .create) :
      MainMoves h { h with r := .firstLock, created := h.created + 1, main := .setStarted }
  | setStarted (hm : h.main = .setStarted) :
      MainMoves h { h with started := true, main := .bumpInput }
  | bumpInput (hm : h.main = .bumpInput) : MainMoves h { h with main := .skipZero }
  | skipZero (hm : h.main = .skipZero) : MainMoves h { h with main := .lock }
  | lock (hm : h.main = .lock) (hx : h.mutex = none) :
      MainMoves h { h with mutex := some .main, main := .postJob }
  | postJob (hm : h.main = .postJob) :
      MainMoves h { h with job := some h.calls, main := .postBroadcast }
  | postBroadcast (hm : h.main = .postBroadcast) : MainMoves h { h with
      r := if h.r = .condWait then .relock else h.r, main := .jobTest }
  | jobDone (hm : h.main = .jobTest) (hj : h.job = none) : MainMoves h { h with main := .unlock }
  | jobWait (hm : h.main = .jobTest) (hj : h.job ≠ none) :
      MainMoves h { h with mutex := none, main := .condWait }
  | relock (hm : h.main = .relock) (hx : h.mutex = none) :
      MainMoves h { h with mutex := some .main, main := .jobTest }
  | unlock (hm : h.main = .unlock) : MainMoves h { h with mutex := none, main := .clearFinishing }
  | clearFinishing (hm : h.main = .clearFinishing) : MainMoves h { h with main := .readArmed }
  | readArmed (hm : h.main = .readArmed) : MainMoves h { h with main := .ret }
  | ret (hm : h.main = .ret) : MainMoves h { h with main := .outside, frame := none }

theorem mainStep_moves {h h' : Handoff J} (hs : h.mainStep = some h') : h.MainMoves h' := by
  cases hm : h.main with
  | outside | condWait => simp [mainStep, hm] at hs
  | lock =>
    obtain ⟨hx, rfl⟩ : h.mutex = none ∧ _ = h' := by simpa [mainStep, hm] using hs
    exact .lock hm hx
  | relock =>
    obtain ⟨hx, rfl⟩ : h.mutex = none ∧ _ = h' := by simpa [mainStep, hm] using hs
    exact .relock hm hx
  | startedTest =>
    obtain rfl := by simpa only [mainStep, hm, Option.some.injEq] using hs
    by_cases hst : h.started = true
    · rw [if_pos hst]
      exact .started hm hst
    · rw [if_neg hst]
      by_cases ha : h.atforkRegistered = true
      · rw [if_pos ha]
        exact .registered hm (by simpa using hst) ha
      · rw [if_neg ha]
        exact .unregistered hm (by simpa using hst) (by simpa using ha)
  | jobTest =>
    obtain rfl := by simpa only [mainStep, hm, Option.some.injEq] using hs
    split
    · exact .jobDone hm ‹_›
    · exact .jobWait hm ‹_›
  | _ =>
    obtain rfl := by simpa only [mainStep, hm, Option.some.injEq] using hs
    constructor
    exact hm

/-- What a statement of the R thread can do. -/
inductive RMoves (h : Handoff J) : Handoff J → Prop
  | firstLock (hr : h.r = .firstLock) (hx : h.mutex = none) :
      RMoves h { h with mutex := some .rThread, r := .jobTest }
  | jobWait (hr : h.r = .jobTest) (hj : h.job = none) :
      RMoves h { h with mutex := none, r := .condWait }
  | jobFound (hr : h.r = .jobTest) (hj : h.job ≠ none) : RMoves h { h with r := .takeJob }
  | relock (hr : h.r = .relock) (hx : h.mutex = none) :
      RMoves h { h with mutex := some .rThread, r := .jobTest }
  | takeJob (hr : h.r = .takeJob) : RMoves h { h with taken := h.job.getD 0, r := .unlock }
  | unlock (hr : h.r = .unlock) : RMoves h { h with mutex := none, r := .readStarted }
  | readStarted (hr : h.r = .readStarted) : RMoves h { h with r := .setRunning }
  | setRunning (hr : h.r = .setRunning) : RMoves h { h with r := .readJob }
  | readJob (hr : h.r = .readJob) : RMoves h { h with r := .labelReset }
  | labelReset (hr : h.r = .labelReset) : RMoves h { h with r := .runJob }
  | runJob (hr : h.r = .runJob) : RMoves h { h with r := .labelClear }
  | labelClear (hr : h.r = .labelClear) : RMoves h { h with r := .clearRunning }
  | clearRunning (hr : h.r = .clearRunning) : RMoves h { h with r := .lock }
  | lock (hr : h.r = .lock) (hx : h.mutex = none) :
      RMoves h { h with mutex := some .rThread, r := .clearJob }
  | clearJob (hr : h.r = .clearJob) : RMoves h { h with job := none, r := .ackBroadcast }
  | ackBroadcast (hr : h.r = .ackBroadcast) : RMoves h { h with
      main := if h.main = .condWait then .relock else h.main, r := .jobTest }

theorem rStep_moves {h h' : Handoff J} (hs : h.rStep = some h') : h.RMoves h' := by
  cases hr : h.r with
  | absent | condWait => simp [rStep, hr] at hs
  | firstLock =>
    obtain ⟨hx, rfl⟩ : h.mutex = none ∧ _ = h' := by simpa [rStep, hr] using hs
    exact .firstLock hr hx
  | relock =>
    obtain ⟨hx, rfl⟩ : h.mutex = none ∧ _ = h' := by simpa [rStep, hr] using hs
    exact .relock hr hx
  | lock =>
    obtain ⟨hx, rfl⟩ : h.mutex = none ∧ _ = h' := by simpa [rStep, hr] using hs
    exact .lock hr hx
  | jobTest =>
    obtain rfl := by simpa only [rStep, hr, Option.some.injEq] using hs
    split
    · exact .jobWait hr ‹_›
    · exact .jobFound hr ‹_›
  | _ =>
    obtain rfl := by simpa only [rStep, hr, Option.some.injEq] using hs
    constructor
    exact hr

theorem wakeMain_eq {h h' : Handoff J} (hs : h.wakeMain = some h') :
    h.main = .condWait ∧ h' = { h with main := .relock } := by
  simpa [wakeMain, eq_comm] using hs

theorem wakeR_eq {h h' : Handoff J} (hs : h.wakeR = some h') :
    h.r = .condWait ∧ h' = { h with r := .relock } := by
  simpa [wakeR, eq_comm] using hs

/-- The two halves of the wait: the job is posted, and awake or running on the R thread;
or it is done, and the main thread awake or about to be woken. -/
@[grind] def Awaiting (h : Handoff J) : Prop :=
  (h.job = some h.calls ∧ (h.r.idle = true ∧ h.r ≠ .condWait ∨ h.r = .takeJob ∨
    h.r.fetched = true ∧ h.taken = h.calls)) ∨
  (h.job = none ∧ (h.r = .ackBroadcast ∨ h.r.idle = true ∧ h.main ≠ .condWait))

structure Inv (h : Handoff J) : Prop where
  mutex_main : h.mutex = some .main ↔ h.main.critical = true
  mutex_r : h.mutex = some .rThread ↔ h.r.critical = true
  quiet : h.main.quiet = true → h.job = none ∧ h.r.idle = true
  posted : h.main = .postBroadcast → h.job = some h.calls ∧ h.r.idle = true
  awaiting : h.main.awaiting = true → h.Awaiting
  frame : h.frame.isSome = true ↔ h.main ≠ .outside
  present : h.r = .absent → h.started = false ∧ h.main.starting = true
  started : h.started = false → h.r = .absent ∨ h.main = .setStarted
  entry : h.main = .atfork ∨ h.main = .create ∨ h.main = .setStarted → h.started = false
  atfork : h.started = true ∨ h.r ≠ .absent ∨ h.main = .create → h.atforkRegistered = true
  created : h.created = if h.r = .absent then 0 else 1

theorem inv_initial : (initial : Handoff J).Inv := by
  constructor <;> grind -ring -linarith [initial]

theorem inv_enter {h : Handoff J} (hi : h.Inv) (hm : h.main = .outside) (j : J) {entry : MainPc}
    (he : entry = .alarmWrap ∨ entry = .startedTest) : (h.enter entry j).Inv := by
  obtain ⟨hmm, hmr, hq, -, -, -, hp, hst, -, hat, hcr⟩ := hi
  rcases he with rfl | rfl <;> constructor <;> grind -ring -linarith [enter]

/-- One statement of the main thread keeps the invariant. -/
theorem inv_mainStep {h h' : Handoff J} (hi : h.Inv) (hs : h.mainStep = some h') : h'.Inv := by
  obtain ⟨hmm, hmr, hq, hpo, haw, hf, hp, hst, hen, hat, hcr⟩ := hi
  cases mainStep_moves hs with
  | create hm =>
    -- the one place a thread is started: there was none
    have habs : h.r = .absent := (hst (hen (by simp [hm]))).resolve_right (by simp [hm])
    constructor <;> grind -ring -linarith
  | postJob hm =>
    -- the R thread is idle, so it cannot be running an earlier job
    have hidle := (hq (by simp [hm, MainPc.quiet])).2
    constructor <;> grind -ring -linarith
  | jobDone hm hj | jobWait hm hj =>
    have hwait := haw (by simp [hm, MainPc.awaiting])
    constructor <;> grind -ring -linarith
  | _ => constructor <;> grind -ring -linarith

/-- Where the R thread can be once it has something to do: the main thread waits for it. -/
theorem Inv.awaiting_of_not_idle {h : Handoff J} (hi : h.Inv) (hr : h.r.idle = false) :
    h.main.awaiting = true ∧ h.Awaiting := by
  have haw : h.main.awaiting = true := by
    have hq := hi.quiet
    have hp := hi.posted
    cases hm : h.main <;> simp_all [MainPc.quiet, MainPc.awaiting]
  exact ⟨haw, hi.awaiting haw⟩

/-- A thread holding a job's pointer holds the pointer of the call in progress. -/
theorem Inv.fetched {h : Handoff J} (hi : h.Inv) (hr : h.r.fetched = true) :
    h.main.awaiting = true ∧ h.job = some h.calls ∧ h.taken = h.calls := by
  have hidle : h.r.idle = false := by
    cases hc : h.r <;> simp_all [RPc.idle, RPc.fetched]
  obtain ⟨haw, hwait⟩ := hi.awaiting_of_not_idle hidle
  refine ⟨haw, ?_⟩
  rcases hwait with ⟨hj, ⟨hid, -⟩ | ht | ⟨-, ht⟩⟩ | ⟨-, ha | ⟨hid, -⟩⟩
  · simp [hid] at hidle
  · simp [ht, RPc.fetched] at hr
  · exact ⟨hj, ht⟩
  · simp [ha, RPc.fetched] at hr
  · simp [hid] at hidle

/-- One statement of the R thread keeps the invariant. -/
theorem inv_rStep {h h' : Handoff J} (hi : h.Inv) (hs : h.rStep = some h') : h'.Inv := by
  have hwait := hi.awaiting_of_not_idle
  have hfetched := hi.fetched
  obtain ⟨hmm, hmr, hq, hpo, haw, hf, hp, hst, hen, hat, hcr⟩ := hi
  cases rStep_moves hs with
  | firstLock | relock | lock | jobWait | jobFound => constructor <;> grind -ring -linarith
  | takeJob hr | ackBroadcast hr =>
    obtain ⟨hmw, hj⟩ := hwait (by simp [hr, RPc.idle])
    constructor <;> grind -ring -linarith
  | _ hr =>
    obtain ⟨hmw, hj, ht⟩ := hfetched (by simp [hr, RPc.fetched])
    constructor <;> grind -ring -linarith

theorem inv_wakeMain {h h' : Handoff J} (hi : h.Inv) (hs : h.wakeMain = some h') : h'.Inv := by
  obtain ⟨hmm, hmr, hq, hpo, haw, hf, hp, hst, hen, hat, hcr⟩ := hi
  obtain ⟨hm, rfl⟩ := wakeMain_eq hs
  constructor <;> grind -ring -linarith

theorem inv_wakeR {h h' : Handoff J} (hi : h.Inv) (hs : h.wakeR = some h') : h'.Inv := by
  obtain ⟨hmm, hmr, hq, hpo, haw, hf, hp, hst, hen, hat, hcr⟩ := hi
  obtain ⟨hr, rfl⟩ := wakeR_eq hs
  constructor <;> grind -ring -linarith

/-- The child of a fork taken outside the call starts over, whatever its parent's R
thread was doing with the mutex. -/
theorem inv_child {h : Handoff J} (hi : h.Inv) (hm : h.main = .outside) : h.child.Inv := by
  obtain ⟨hmm, hmr, hq, hpo, haw, hf, hp, hst, hen, hat, hcr⟩ := hi
  by_cases ha : h.atforkRegistered = true
  · constructor <;> grind -ring -linarith [child, forget]
  · have habs : h.r = .absent := by grind -ring -linarith
    constructor <;> grind -ring -linarith [child]

/-- The job the R thread is about to run is the live job of the call in progress. -/
theorem Inv.readJob {h : Handoff J} (hi : h.Inv) (hr : h.r = .readJob) :
    h.readJob = h.frame ∧ h.frame.isSome = true ∧ h.taken = h.calls := by
  obtain ⟨hmw, -, ht⟩ := hi.fetched (by simp [hr, RPc.fetched])
  refine ⟨by simp [Handoff.readJob, ht], hi.frame.mpr ?_, ht⟩
  intro hm
  simp [hm, MainPc.awaiting] at hmw

/-- No lost wake-up and no deadlock: during the call one of the two threads can take
its next statement. -/
theorem Inv.progress {h : Handoff J} (hi : h.Inv) (hm : h.main ≠ .outside) :
    h.mainStep.isSome = true ∨ h.rStep.isSome = true := by
  obtain ⟨hmm, hmr, -, -, haw, -, hpres, -⟩ := hi
  -- a taken mutex is taken by a thread inside its critical section, which never blocks
  have hmutex : h.mutex = none ∨ h.mainStep.isSome = true ∨ h.rStep.isSome = true := by
    cases hx : h.mutex with
    | none => exact .inl rfl
    | some t =>
      cases t with
      | main =>
        have hc := hmm.mp hx
        cases hp : h.main <;> simp_all [mainStep, MainPc.critical]
      | rThread =>
        have hc := hmr.mp hx
        cases hp : h.r <;> simp_all [rStep, RPc.critical]
  rcases hmutex with hfree | hstep
  · cases hp : h.main with
    | outside => exact absurd hp hm
    | condWait =>
      -- asleep: the job is posted to an R thread that is awake, or the wake-up is due
      have hwait := haw (by simp [hp, MainPc.awaiting])
      right
      cases hr : h.r <;> simp_all [rStep, Awaiting, RPc.idle, RPc.fetched, MainPc.starting]
    | _ => left; simp [mainStep, hp, hfree]
  · exact hstep

end Handoff
end ROssFuzz.RThreadHandoff
