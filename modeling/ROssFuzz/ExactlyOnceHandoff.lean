import ROssFuzz.DumpSoundness

/-!
# Exactly-once handoff

What a caller of `fuzz_run_on_r_thread` relies on, for every process there comes to be:
a fork leaves its parent as it is and adds a child, whose history is its parent's and
whose R thread is gone.
-/

namespace ROssFuzz.TimeoutAlarm
open RThreadHandoff TransitionRuns

variable {J : Type} {cfg : Config}

def Event.executes (n : ℕ) : Event J → Bool
  | .executed m _ => m == n
  | _ => false

/-- Some statement of the given kinds can be taken. -/
def Enabled (cfg : Config) (s : State J) (as : List (Action J)) : Prop :=
  ∃ a ∈ as, (step cfg s a).isSome = true

structure HandsOff (cfg : Config) (es : List (Event J)) (s : State J) : Prop where
  /-- A job runs at most once, and it is the one the call was made with. -/
  once : ∀ n j c, .called n j c ∈ es →
    es.countP (Event.executes n) ≤ 1 ∧ ∀ j', .executed n j' ∈ es → j' = j
  /-- It has run by the time the call returns. -/
  returned : ∀ pre n post, es = pre ++ .returned n :: post →
    (∃ j c, .called n j c ∈ pre) ∧ pre.countP (Event.executes n) = 1
  /-- It runs on the R thread. -/
  byR : ∀ a n j t, step cfg s a = some (.executed n j, t) → a = .rThread
  /-- The caller's frame is read while it is alive. -/
  frame : .wildRead ∉ es
  /-- During a call some thread can go on. -/
  progress : s.exited = false → s.handoff.main ≠ .outside →
    if s.tick = none then Enabled cfg s [.main, .rThread, .dump]
    else Enabled cfg s [.alarm false false]
  /-- A handler that waits for the input waits for a thread that can go on. -/
  hold : s.exited = false → s.alarm.running = true → Enabled cfg s [.rThread, .dump]
  /-- There is one R thread, from the call that needs it first. -/
  thread : s.handoff.created = (if s.handoff.r = .absent then 0 else 1) ∧
    (s.handoff.r = .absent → s.handoff.main.starting = true)

theorem Run.executes_count {es : List (Event J)} {s : State J} (h : (system J cfg).Run es s)
    (n : ℕ) : es.countP (Event.executes n) =
      if 5 ≤ 5 * n + 3 ∧ 5 * n + 3 ≤ s.handoff.milestone then 1 else 0 := by
  rw [← Run.milestone_count h (5 * n + 3)]
  congr 1
  funext e
  cases e <;> simp [Event.executes, Event.milestone] <;> omega

private theorem moves_returned {s s' : State J} {n : ℕ} (hs : Moves cfg s (.returned n) s') :
    s.handoff.main = .ret ∧ n = s.handoff.calls := by
  generalize he : Event.returned n = e at hs
  have hactor : e.actor = .main := he ▸ rfl
  cases hs with
  | main h ht hh => cases hm : s.handoff.main <;> simp_all [mainEvent]
  | rThread | alarm | dump => simp at hactor
  | _ => cases he

/-- At the return the job is done. -/
private theorem milestone_of_ret {h : Handoff J} (hi : h.Inv) (hm : h.main = .ret) :
    h.milestone = 5 * h.calls + 4 := by
  have hjob := (hi.quiet (by simp [hm, MainPc.quiet])).1
  simp [Handoff.milestone, Handoff.stage, hm, hjob, MainPc.posting]

/-- The R thread's statements inside the job never block. -/
private theorem rStep_of_inside {h : Handoff J} (hr : h.r.inside = true) :
    h.rStep.isSome = true := by
  cases hp : h.r <;> simp_all [RPc.inside, Handoff.rStep]

private theorem enabled_rThread {s : State J} (hx : s.exited = false)
    (hr : s.handoff.rStep.isSome = true) : Enabled cfg s [.rThread, .dump] := by
  cases hd : s.dump with
  | none => exact ⟨.rThread, by simp, by simp [step, liveStep, rStep, hx, hd, hr]⟩
  | some pc => exact ⟨.dump, by simp, by simp [step, liveStep, hx, hd]⟩

/-- Only a statement of the R thread executes a job. -/
private theorem action_of_executed {s s' : State J} {a : Action J} {n : ℕ} {j : J}
    (hs : step cfg s a = some (.executed n j, s')) : a = .rThread := by
  have hshow := step_shows hs
  cases a with
  | rThread => rfl
  | main | alarm | dump => cases step_actor hs rfl
  | _ => simp [Action.Shows] at hshow

theorem Run.handsOff {es : List (Event J)} {s : State J} (h : (system J cfg).Run es s) :
    HandsOff cfg es s := by
  have hi := Run.inv h
  have hb := Run.behind h
  refine ⟨?_, ?_, ?_, hb.wild, ?_, ?_, hi.handoff.created, fun hr => (hi.handoff.present hr).2⟩
  · intro n j c hj
    refine ⟨?_, fun j' hj' => ?_⟩
    · rw [Run.executes_count h]
      split <;> omega
    · obtain ⟨c', hc'⟩ := hb.executed n j' hj'
      have heq := Run.milestone_unique h hc' hj rfl rfl
      simp only [Event.called.injEq] at heq
      exact heq.2.1
  · rintro pre n post rfl
    obtain ⟨u, a, u', hpre, hstep, -⟩ := h.split
    obtain ⟨hm, rfl⟩ := moves_returned (step_moves hstep).2
    have hiu := (Run.inv hpre).handoff
    have hout : u.handoff.main ≠ .outside := by simp [hm]
    obtain ⟨j, hj⟩ := Option.isSome_iff_exists.mp (hiu.frame.mpr hout)
    have hpos := Run.calls_pos hpre hout
    refine ⟨⟨j, (Run.behind hpre).called j hj⟩, ?_⟩
    rw [Run.executes_count hpre, milestone_of_ret hiu hm, if_pos (by omega)]
  · exact fun a n j t hs => action_of_executed hs
  · intro hx hm
    split
    · rename_i ht
      rcases hi.handoff.progress hm with hmain | hr
      · exact ⟨.main, by simp, by simp [step, liveStep, mainStep, hx, ht, hmain]⟩
      · obtain ⟨a, ha, hstep⟩ : Enabled cfg s [.rThread, .dump] := enabled_rThread hx hr
        exact ⟨a, List.mem_cons_of_mem _ ha, hstep⟩
    · rename_i ht
      obtain ⟨pc, hpc⟩ := Option.ne_none_iff_exists'.mp ht
      exact ⟨.alarm false false, by simp, by simp [step, liveStep, hx, hpc]⟩
  · intro hx hr
    exact enabled_rThread hx (rStep_of_inside (by rwa [← hi.running]))

/-! ### Processes -/

/-- A process, with what it and the processes it was forked from have done. -/
structure Process (J : Type) where
  history : List (Event J)
  state : State J

/-- All processes there are. The scheduler picks one and a step of it; a fork leaves the
parent where it is. -/
def processes (J : Type) (cfg : Config) : System (List (Process J)) (ℕ × Action J) (ℕ × Event J) where
  init ps := ∃ now, ps = [⟨[], .initial now⟩]
  step ps := fun (i, a) => do
    let p ← ps[i]?
    let (e, t) ← step cfg p.state a
    some ((i, e), match a with
      | .fork => ps ++ [⟨p.history ++ [e], t⟩]
      | _ => ps.set i ⟨p.history ++ [e], t⟩)

/-- A step changes one process or adds one. -/
theorem processes_step {ps ps' : List (Process J)} {i : ℕ} {a : Action J} {e : ℕ × Event J}
    (hs : (processes J cfg).step ps (i, a) = some (e, ps')) :
    ∃ p e' t, p ∈ ps ∧ step cfg p.state a = some (e', t) ∧
      ∀ q ∈ ps', q ∈ ps ∨ q = ⟨p.history ++ [e'], t⟩ := by
  simp only [processes, Option.bind_eq_bind, Option.bind_eq_some_iff, Option.some.injEq,
    Prod.mk.injEq] at hs
  obtain ⟨p, hp, ⟨e', t⟩, hstep, -, rfl⟩ := hs
  refine ⟨p, e', t, List.mem_of_getElem? hp, hstep, fun q hq => ?_⟩
  split at hq
  · simpa using hq
  · exact List.mem_or_eq_of_mem_set hq

/-- Each process there is has a run of its own behind it. -/
theorem processes_run {es : List (ℕ × Event J)} {ps : List (Process J)}
    (h : (processes J cfg).Run es ps) : ∀ p ∈ ps, (system J cfg).Run p.history p.state := by
  refine h.invariant (I := fun ps => ∀ p ∈ ps, (system J cfg).Run p.history p.state) ?_ ?_
  · rintro ps ⟨now, rfl⟩ p hp
    obtain rfl : p = ⟨[], .initial now⟩ := by simpa using hp
    exact System.Run.init ⟨now, rfl⟩
  · rintro ps ⟨i, a⟩ e ps' hrun hs q hq
    obtain ⟨p, e', t, hp, hstep, hmem⟩ := processes_step hs
    rcases hmem q hq with hq | rfl
    · exact hrun q hq
    · exact (hrun p hp).snoc hstep

/-- Every process hands each of its calls' jobs to its R thread exactly once, and never
deadlocks. A fork leaves all processes as they are, and its child starts without an R
thread, a posted job or a taken mutex. -/
theorem handoff_exactly_once {es : List (ℕ × Event J)} {ps : List (Process J)}
    (h : (processes J cfg).Run es ps) :
    (∀ p ∈ ps, HandsOff cfg p.history p.state) ∧
      ∀ i e ps', (processes J cfg).step ps (i, .fork) = some (e, ps') →
        ∃ p child, ps[i]? = some p ∧ ps' = ps ++ [child] ∧
          child.history = p.history ++ [.forked] ∧ child.state.handoff.r = .absent ∧
          child.state.handoff.created = 0 ∧ child.state.handoff.started = false ∧
          child.state.handoff.job = none ∧ child.state.handoff.mutex = none := by
  refine ⟨fun p hp => Run.handsOff (processes_run h p hp), ?_⟩
  intro i e ps' hs
  simp only [processes, Option.bind_eq_bind, Option.bind_eq_some_iff, Option.some.injEq,
    Prod.mk.injEq] at hs
  obtain ⟨p, hp, ⟨e', t⟩, hstep, -, rfl⟩ := hs
  have hi := (Run.inv (processes_run h p (List.mem_of_getElem? hp))).handoff
  obtain ⟨-, ⟨hm, -⟩, rfl, rfl⟩ : p.state.exited = false ∧
      (p.state.handoff.main = .outside ∧ p.state.tick = none) ∧ .forked = e' ∧
        { p.state with handoff := p.state.handoff.child, dump := none, pending := 0 } = t := by
    simpa [step, liveStep] using hstep
  refine ⟨p, _, hp, rfl, rfl, rfl, rfl, ?_⟩
  have hjob := (hi.quiet (by simp [hm, MainPc.quiet])).1
  have hmain := hi.mutex_main
  have hr := hi.mutex_r
  have hst := hi.started
  have hat := hi.atfork
  by_cases ha : p.state.handoff.atforkRegistered = true
  · simp [Handoff.child, Handoff.forget, ha]
  · have habs : p.state.handoff.r = .absent := by
      by_contra hne
      exact ha (hat (.inr (.inl hne)))
    have hnot : p.state.handoff.started = false := by
      by_contra hne
      exact ha (hat (.inl (by simpa using hne)))
    refine ⟨by simpa [Handoff.child, ha] using hnot, by simpa [Handoff.child, ha] using hjob, ?_⟩
    simp only [Handoff.child, ha]
    cases hx : p.state.handoff.mutex with
    | none => simpa using hx
    | some t => cases t <;> simp_all [MainPc.critical, RPc.critical]

/-- One call before a fork and one in the child. -/
def forkSchedule : List (ℕ × Action Unit) := List.flatten
  [[(0, .call ())], .replicate 10 (0, .main), .replicate 15 (0, .rThread),
    .replicate 6 (0, .main), [(0, .fork), (1, .call ())], .replicate 9 (1, .main),
    .replicate 15 (1, .rThread), .replicate 6 (1, .main)]

def forkTrace : List (ℕ × Event Unit) := List.flatten
  [[(0, .called 1 () (.other false))], .replicate 10 (0, .silent .main),
    .replicate 4 (0, .silent .rThread),
    [(0, .started 1 (.second 10)), (0, .runningSet 1), (0, .executed 1 ()),
      (0, .silent .rThread), (0, .silent .rThread), (0, .silent .rThread), (0, .finished 1)],
    .replicate 4 (0, .silent .rThread), .replicate 5 (0, .silent .main),
    [(0, .returned 1), (0, .forked), (1, .called 2 () (.other false))],
    .replicate 9 (1, .silent .main), .replicate 4 (1, .silent .rThread),
    [(1, .started 2 (.second 10)), (1, .runningSet 2), (1, .executed 2 ()),
      (1, .silent .rThread), (1, .silent .rThread), (1, .silent .rThread), (1, .finished 2)],
    .replicate 4 (1, .silent .rThread), .replicate 5 (1, .silent .main), [(1, .returned 2)]]

theorem handoff_exactly_once_fork : ∃ ps, (processes Unit threeSeconds).Run forkTrace ps ∧
    ps.length = 2 ∧ ∀ p ∈ ps, HandsOff threeSeconds p.history p.state := by
  obtain ⟨ps, h, hlen⟩ : ∃ ps, (processes Unit threeSeconds).Run forkTrace ps ∧ ps.length = 2 :=
    System.Run.of_exec (S := processes Unit threeSeconds) List.length
      [⟨[], State.initial (.second 10)⟩] forkSchedule ⟨_, rfl⟩ (by decide +kernel)
  exact ⟨ps, h, hlen, (handoff_exactly_once h).1⟩

end ROssFuzz.TimeoutAlarm
