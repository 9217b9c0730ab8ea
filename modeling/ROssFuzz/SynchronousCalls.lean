import ROssFuzz.ExactlyOnceHandoff

/-!
# Synchronous calls

What `fuzz_run_on_r_thread` is for: a machine that makes a call, executes its job and returns, one
call after the other. What is to be seen of the handoff, whatever its two threads, the ticks and the
dumps do, is a run of this machine; so is what a forked process shows, with what went before.
-/

namespace ROssFuzz
open TransitionRuns

/-! ### The machine -/

namespace SynchronousCalls

inductive Phase (J : Type)
  | idle
  | called (j : J)
  | executed

structure State (J : Type) where
  calls : ℕ
  phase : Phase J

inductive Event (J : Type)
  | called (n : ℕ) (j : J)
  | executed (n : ℕ) (j : J)
  | returned (n : ℕ)

inductive Action (J : Type)
  | call (j : J)
  | execute
  | ret

variable {J : Type}

def step (s : State J) (a : Action J) : Option (Event J × State J) :=
  match a, s.phase with
  | .call j, .idle => some (.called (s.calls + 1) j, ⟨s.calls + 1, .called j⟩)
  | .execute, .called j => some (.executed s.calls j, ⟨s.calls, .executed⟩)
  | .ret, .executed => some (.returned s.calls, ⟨s.calls, .idle⟩)
  | _, _ => none

def system (J : Type) : System (State J) (Action J) (Event J) where
  init s := s = ⟨0, .idle⟩
  step := step

def Event.called? : Event J → Option (ℕ × J)
  | .called n j => some (n, j)
  | _ => none

def Event.executed? : Event J → Option (ℕ × J)
  | .executed n j => some (n, j)
  | _ => none

def Event.returned? : Event J → Option ℕ
  | .returned n => some n
  | _ => none

/-- The call whose job has not been executed. -/
def State.waiting (s : State J) : List (ℕ × J) :=
  match s.phase with
  | .called j => [(s.calls, j)]
  | _ => []

/-- The call that has not returned. -/
def State.unfinished (s : State J) : List ℕ :=
  match s.phase with
  | .idle => []
  | _ => [s.calls]

/-- The jobs are executed in the order of the calls, and the calls return in this order. -/
structure InOrder (es : List (Event J)) (s : State J) : Prop where
  executed : es.filterMap Event.executed? ++ s.waiting = es.filterMap Event.called?
  returned : es.filterMap Event.returned? ++ s.unfinished = (es.filterMap Event.called?).map Prod.fst
  numbered : (es.filterMap Event.called?).map Prod.fst = (List.range s.calls).map Nat.succ

theorem Run.inOrder {es : List (Event J)} {s : State J} (h : (system J).Run es s) : InOrder es s := by
  refine h.induct ?_ ?_
  · rintro s rfl
    exact ⟨rfl, rfl, rfl⟩
  · rintro es ⟨calls, phase⟩ a e t _ ⟨hexecuted, hreturned, hnumbered⟩ hs
    simp only [system, step] at hs
    cases a <;> cases phase <;> simp only [Option.some.injEq, Prod.mk.injEq, reduceCtorEq] at hs <;>
      obtain ⟨rfl, rfl⟩ := hs
    all_goals
      constructor <;>
        simp_all [List.filterMap_append, List.filterMap_cons, State.waiting, State.unfinished,
          Event.called?, Event.executed?, Event.returned?, List.range_succ]

end SynchronousCalls

/-! ### The handoff -/

namespace TimeoutAlarm
open RThreadHandoff

variable {J : Type} {cfg : Config}

/-- What can be seen. -/
def Event.visible : Event J → Option (SynchronousCalls.Event J)
  | .called n j _ => some (.called n j)
  | .executed n j => some (.executed n j)
  | .returned n => some (.returned n)
  | _ => none

def Event.executes? : Event J → Option ℕ
  | .executed n _ => some n
  | _ => none

/-- Between the call and the return there is a frame, and the stage says whether its job has been
executed. -/
def State.view (s : State J) : SynchronousCalls.State J where
  calls := s.handoff.calls
  phase :=
    match s.handoff.frame with
    | none => .idle
    | some j => if s.handoff.stage < 3 then .called j else .executed

private theorem stage_le (h : Handoff J) : h.stage ≤ 4 := by
  unfold Handoff.stage
  (repeat' split) <;> first | omega | cases h.r <;> decide

/-- A step that cannot be seen and leaves the frame and the number of the call. -/
private theorem view_of_invisible {s t : State J} {e : Event J}
    (hnext : NextMilestone e s.handoff t.handoff) (hvisible : e.visible = none)
    (hcalls : t.handoff.calls = s.handoff.calls) (hframe : t.handoff.frame = s.handoff.frame) :
    t.view = s.view := by
  have hle := stage_le s.handoff
  have hstage : t.handoff.stage < 3 ↔ s.handoff.stage < 3 := by
    rcases hnext with ⟨-, hsame⟩ | ⟨hmilestone, hnext⟩
    · simp only [Handoff.milestone, hcalls] at hsame
      omega
    · simp only [Handoff.milestone, hcalls] at hnext hmilestone
      -- the milestones that cannot be seen are not the third
      cases e <;> simp_all [Event.milestone, Event.visible] <;> omega
  simp only [State.view, hcalls, hframe, hstage]

private theorem view_enter {s t : State J} (j : J) {entry : MainPc}
    (hentry : entry = .alarmWrap ∨ entry = .startedTest)
    (hhandoff : t.handoff = s.handoff.enter entry j) :
    t.view = ⟨s.handoff.calls + 1, .called j⟩ := by
  rcases hentry with rfl | rfl <;>
    simp [State.view, hhandoff, Handoff.enter, Handoff.stage, MainPc.posting]

private theorem view_outside {s : State J} (hi : s.handoff.Inv) (hm : s.handoff.main = .outside) :
    s.view = ⟨s.handoff.calls, .idle⟩ := by
  have hframe : s.handoff.frame = none := by
    by_contra hne
    exact hi.frame.mp (Option.isSome_iff_ne_none.mpr hne) hm
  simp [State.view, hframe]

/-- A step of the machine, or one that cannot be seen. -/
def Simulated (s : State J) (e : Event J) (t : State J) : Prop :=
  (∃ a e', e.visible = some e' ∧ (SynchronousCalls.system J).step s.view a = some (e', t.view)) ∨
    e.visible = none ∧ t.view = s.view

private theorem simulated_main {s : State J} {h : Handoff J} (hi : s.handoff.Inv)
    (hs : s.handoff.mainStep = some h) {t : State J} (ht : t.handoff = h)
    (hnext : NextMilestone (mainEvent s.handoff) s.handoff t.handoff) :
    Simulated s (mainEvent s.handoff) t := by
  subst ht
  have hcalls := (mainStep_calls hs).1
  by_cases hm : s.handoff.main = .ret
  · obtain ⟨j, hframe⟩ := Option.isSome_iff_exists.mp (hi.frame.mpr (by simp [hm]))
    have hjob := (hi.quiet (by simp [hm, MainPc.quiet])).1
    have hstage : s.handoff.stage = 4 := by simp [Handoff.stage, hm, hjob, MainPc.posting]
    have hout : t.handoff.frame = none := by
      generalize t.handoff = h at hs
      cases Handoff.mainStep_moves hs <;> simp_all
    refine .inl ⟨.ret, .returned s.handoff.calls, by simp [mainEvent, hm, Event.visible], ?_⟩
    simp [SynchronousCalls.system, SynchronousCalls.step, State.view, hframe, hstage, hout, hcalls]
  · have hvisible : (mainEvent s.handoff).visible = none := by
      unfold mainEvent
      split
      · exact absurd ‹_› hm
      · rfl
    have hframe : t.handoff.frame = s.handoff.frame := by
      generalize t.handoff = h at hs
      cases Handoff.mainStep_moves hs with
      | ret hret => exact absurd hret hm
      | _ => rfl
    exact .inr ⟨hvisible, view_of_invisible hnext hvisible hcalls hframe⟩

private theorem simulated_r {s : State J} {h : Handoff J} (hi : s.handoff.Inv)
    (hs : s.handoff.rStep = some h) {t : State J} (ht : t.handoff = h)
    (hnext : NextMilestone (rEvent s.handoff s.now) s.handoff t.handoff) :
    Simulated s (rEvent s.handoff s.now) t := by
  subst ht
  obtain ⟨hcalls, hframe⟩ := rStep_calls hs
  by_cases hr : s.handoff.r = .readJob
  · obtain ⟨hjob, hsome, htaken⟩ := hi.readJob hr
    obtain ⟨j, hj⟩ := Option.isSome_iff_exists.mp hsome
    have hevent : rEvent s.handoff s.now = .executed s.handoff.calls j := by
      simp [rEvent, hr, hjob, hj, htaken]
    rw [hevent] at hnext ⊢
    have hle := stage_le s.handoff
    obtain ⟨hbefore, hafter⟩ : s.handoff.stage = 2 ∧ t.handoff.stage = 3 := by
      rcases hnext with ⟨hnone, -⟩ | ⟨hmilestone, hnext⟩
      · cases hnone
      · simp only [Event.milestone, Handoff.milestone, Option.some.injEq, hcalls] at hmilestone hnext
        omega
    refine .inl ⟨.execute, .executed s.handoff.calls j, rfl, ?_⟩
    simp [SynchronousCalls.system, SynchronousCalls.step, State.view, hj, hframe, hcalls, hbefore,
      hafter]
  · have hvisible : (rEvent s.handoff s.now).visible = none := by
      unfold rEvent
      split <;> first | rfl | exact absurd ‹_› hr
    exact .inr ⟨hvisible, view_of_invisible hnext hvisible hcalls hframe⟩

theorem moves_simulated {s t : State J} {e : Event J} (hi : s.handoff.Inv) (hs : Moves cfg s e t) :
    Simulated s e t := by
  have hnext := moves_milestone hi hs
  cases hs with
  | call j hm =>
    refine .inl ⟨.call j, _, rfl, ?_⟩
    rw [view_outside hi hm, view_enter j (.inr rfl) rfl]
    rfl
  | testOneInput j hm =>
    refine .inl ⟨.call j, _, rfl, ?_⟩
    rw [view_outside hi hm, view_enter j (.inl rfl) rfl]
    rfl
  | main h _ hh => exact simulated_main hi hh rfl hnext
  | rThread h _ hh => exact simulated_r hi hh rfl hnext
  | alarm killFails letPass pc =>
    have hvisible : (alarmStep cfg killFails letPass s pc).1.visible = none := by
      have hactor := alarmStep_actor cfg killFails letPass s pc
      cases he : (alarmStep cfg killFails letPass s pc).1 <;>
        simp [he, Event.actor, Event.visible] at hactor ⊢
    exact .inr ⟨hvisible, view_of_invisible hnext hvisible (by simp) (by simp)⟩
  | dump pc => cases pc <;> exact .inr ⟨rfl, rfl⟩
  | wakeMain h hh =>
    obtain ⟨-, rfl⟩ := Handoff.wakeMain_eq hh
    exact .inr ⟨rfl, view_of_invisible hnext rfl rfl rfl⟩
  | wakeRThread h hh =>
    obtain ⟨-, rfl⟩ := Handoff.wakeR_eq hh
    exact .inr ⟨rfl, view_of_invisible hnext rfl rfl rfl⟩
  | fork hm =>
    have hchild : s.handoff.child.main = .outside ∧ s.handoff.child.calls = s.handoff.calls := by
      simp only [Handoff.child, Handoff.forget]
      split <;> exact ⟨hm, rfl⟩
    refine .inr ⟨rfl, ?_⟩
    rw [view_outside hi hm, view_outside (Handoff.inv_child hi hm) hchild.1, hchild.2]
  | advance | label | tick | deliverDump => exact .inr ⟨rfl, rfl⟩

theorem Run.synchronous {es : List (Event J)} {s : State J} (h : (system J cfg).Run es s) :
    (SynchronousCalls.system J).Run (es.filterMap Event.visible) s.view := by
  refine h.simulate (T := SynchronousCalls.system J) State.view Event.visible ?_ ?_
  · rintro s ⟨now, rfl⟩
    rfl
  · intro es s a e t hrun hs
    exact moves_simulated (Run.inv hrun).handoff (step_moves hs).2

/-- Every process there comes to be shows a run of the machine, in which the jobs are executed in
the order of the calls and the calls return in this order, each before the next is made. -/
theorem handoff_refines {es : List (ℕ × Event J)} {ps : List (Process J)}
    (h : (processes J cfg).Run es ps) (p : Process J) (hp : p ∈ ps) :
    (SynchronousCalls.system J).Run (p.history.filterMap Event.visible) p.state.view ∧
      SynchronousCalls.InOrder (p.history.filterMap Event.visible) p.state.view := by
  have hrun := Run.synchronous (processes_run h p hp)
  exact ⟨hrun, SynchronousCalls.Run.inOrder hrun⟩

theorem handoff_refines_fork : ∃ ps, (processes Unit threeSeconds).Run forkTrace ps ∧
    ps.map (fun p => p.history.filterMap Event.executes?) = [[1], [1, 2]] ∧
    ∀ p ∈ ps, SynchronousCalls.InOrder (p.history.filterMap Event.visible) p.state.view := by
  obtain ⟨ps, h, hexecuted⟩ : ∃ ps, (processes Unit threeSeconds).Run forkTrace ps ∧
      ps.map (fun p => p.history.filterMap Event.executes?) = [[1], [1, 2]] :=
    System.Run.of_exec (S := processes Unit threeSeconds)
      (List.map fun p => p.history.filterMap Event.executes?)
      [⟨[], State.initial (.second 10)⟩] forkSchedule ⟨_, rfl⟩ (by decide +kernel)
  exact ⟨ps, h, hexecuted, fun p hp => (handoff_refines h p hp).2⟩

end TimeoutAlarm
end ROssFuzz
