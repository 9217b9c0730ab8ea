import ROssFuzz.TimeoutAlarmHistory

/-!
# Three clocks

libFuzzer's clock for an input starts as its callback is entered, `started` is read on
the R thread once the job is there, and `armed` was read as the call before it
returned. A hold compares the second with readings of its own; libFuzzer compares the
first. What a tick has learnt from a reading stays true as the clock advances, since
the calling thread is suspended under it and cannot read `armed` or post another job.
-/

namespace ROssFuzz.TimeoutAlarm
open RThreadHandoff TransitionRuns

variable {J : Type} {cfg : Config}

/-- The borrow computes the floor. -/
theorem fuzzSecondsSince_eq_elapsed (now since : Timespec) :
    fuzzSecondsSince now since = now.elapsed since := by
  rw [Timespec.elapsed_eq_borrow]
  rfl

theorem fuzzSecondsSince_mono {now now' since since' : Timespec} (h : now ≤ now')
    (h' : since' ≤ since) : fuzzSecondsSince now since ≤ fuzzSecondsSince now' since' := by
  simpa only [fuzzSecondsSince_eq_elapsed] using Timespec.elapsed_mono h h'

/-- The hold is over and the input was found running: the statements from the dump
request to the chained handler. -/
@[grind] def TickPc.overdue : TickPc → Bool
  | .loadInput | .requestedTest _ | .storeRequested _ | .writeHeader _ | .killRThread _
  | .storeDone _ | .doneTest _ _ | .stillRunningTest _ _ | .waitNanosleep _ _
  | .chain (.held _) => true
  | _ => false

/-- Somebody is in the call: libFuzzer's input, or other code. -/
def State.caller (s : State J) : Caller :=
  match s.unit with
  | some start => .input s.alarm.armed start
  | none => .other s.alarm.installed

/-- An age was read, for the job whose start had been read before. -/
def AgeRead (es : List (Event J)) (n : ℕ) (age : ℤ) : Prop :=
  ∃ t₀ t, List.Sublist [.started n t₀, .ageRead n t] es ∧ age = fuzzSecondsSince t t₀

/-- After a reading `timeout` whole seconds past its own start, the job was seen
running, and it had not finished by then. -/
def SeenOverdue (timeout : ℤ) (es : List (Event J)) (n : ℕ) : Prop :=
  ∃ before after age, es = before ++ .sawRunning n :: after ∧ AgeRead before n age ∧
    timeout ≤ age ∧ .finished n ∉ before

theorem AgeRead.append {es : List (Event J)} {n : ℕ} {age : ℤ} (h : AgeRead es n age)
    (fs : List (Event J)) : AgeRead (es ++ fs) n age := by
  obtain ⟨t₀, t, hsub, hage⟩ := h
  exact ⟨t₀, t, hsub.trans (List.sublist_append_left es fs), hage⟩

theorem SeenOverdue.append {timeout : ℤ} {es : List (Event J)} {n : ℕ}
    (h : SeenOverdue timeout es n) (fs : List (Event J)) :
    SeenOverdue timeout (es ++ fs) n := by
  obtain ⟨before, after, age, rfl, h⟩ := h
  exact ⟨before, after ++ fs, age, by simp, h⟩

/-- What the statement a tick has reached says about the readings it took. -/
def TickPc.Knows (cfg : Config) (es : List (Event J)) (s : State J) (pc : TickPc) : Prop :=
  (∀ age, pc = .runningLook age →
    age ≤ fuzzSecondsSince s.now s.alarm.started ∧ AgeRead es s.handoff.calls age) ∧
  (pc.overdue = true →
    cfg.timeout ≤ fuzzSecondsSince s.now s.alarm.started ∧
      SeenOverdue cfg.timeout es s.handoff.calls) ∧
  (∀ r, pc = .chain (.young r) →
    r ≤ s.now ∧ fuzzSecondsSince r s.alarm.armed < cfg.timeout - 1)

/-- A tick that has not seen the job running knows nothing. -/
private theorem TickPc.knows_of_not_engaged {es : List (Event J)} {s : State J} {pc : TickPc}
    (h : pc.engaged = false) : pc.Knows cfg es s := by
  refine ⟨?_, ?_, ?_⟩
  · rintro age rfl
    simp [TickPc.engaged] at h
  · intro hp
    cases pc with
    | chain route => cases route <;> simp_all [TickPc.engaged, TickPc.overdue]
    | _ => simp_all [TickPc.engaged, TickPc.overdue]
  · rintro r rfl
    simp [TickPc.engaged] at h

/-- It survives what leaves the call and its two readings alone. -/
private theorem TickPc.Knows.keep {es : List (Event J)} {s s' : State J} {pc : TickPc}
    (h : pc.Knows cfg es s) (fs : List (Event J)) (hnow : s.now ≤ s'.now)
    (hcalls : s'.handoff.calls = s.handoff.calls)
    (hst : s'.alarm.started = s.alarm.started) (harm : s'.alarm.armed = s.alarm.armed) :
    pc.Knows cfg (es ++ fs) s' := by
  obtain ⟨hlook, hover, hyoung⟩ := h
  have hage : fuzzSecondsSince s.now s.alarm.started ≤
      fuzzSecondsSince s'.now s'.alarm.started := by
    rw [hst]
    exact fuzzSecondsSince_mono hnow (Timespec.le_refl _)
  refine ⟨?_, ?_, ?_⟩
  · intro age hp
    obtain ⟨hle, hread⟩ := hlook age hp
    exact ⟨hle.trans hage, hcalls ▸ hread.append fs⟩
  · intro hp
    obtain ⟨hle, hseen⟩ := hover hp
    exact ⟨hle.trans hage, hcalls ▸ hseen.append fs⟩
  · intro r hp
    obtain ⟨hle, hlt⟩ := hyoung r hp
    exact ⟨Timespec.le_trans hle hnow, harm ▸ hlt⟩

/-- Past the hold nothing is learnt and nothing is lost. -/
private theorem TickPc.Knows.next {es : List (Event J)} {s s' : State J} {pc pc' : TickPc}
    (h : pc.Knows cfg es s) (fs : List (Event J)) (hpc : pc.overdue = true)
    (hpc' : pc'.overdue = true) (hnow : s'.now = s.now)
    (hcalls : s'.handoff.calls = s.handoff.calls)
    (hst : s'.alarm.started = s.alarm.started) : pc'.Knows cfg (es ++ fs) s' := by
  obtain ⟨hle, hseen⟩ := h.2.1 hpc
  refine ⟨?_, fun _ => ⟨by rwa [hnow, hst], hcalls ▸ hseen.append fs⟩, ?_⟩
  · rintro age rfl
    simp [TickPc.overdue] at hpc'
  · rintro r rfl
    simp [TickPc.overdue] at hpc'

structure Clocks (cfg : Config) (es : List (Event J)) (s : State J) : Prop where
  unit : ∀ u, s.unit = some u → u ≤ s.now ∧ s.handoff.main ≠ .outside ∧
    (1 ≤ s.handoff.stage → u ≤ s.alarm.started)
  wrap : s.handoff.main = .alarmWrap → s.unit.isSome = true
  caller : s.handoff.main ≠ .outside → s.handoff.main ≠ .ret →
    ∃ j, .called s.handoff.calls j s.caller ∈ es
  installed : s.tick.isSome = true → s.alarm.installed = true
  tick : ∀ pc, s.tick = some pc → pc.Knows cfg es s

theorem mainStep_next {h h' : Handoff J} (hs : h.mainStep = some h') :
    h.main ≠ .outside ∧ h'.main ≠ .alarmWrap ∧ (h'.main = .outside ↔ h.main = .ret) ∧
      (h'.main = .ret ↔ h.main = .readArmed) := by
  cases Handoff.mainStep_moves hs with
  | _ hm => simp [hm]

private theorem mainEffect_installed (pc : MainPc) (now : Timespec) (a : Alarm)
    (h : pc ≠ .alarmWrap) : (mainEffect cfg pc now a).installed = a.installed := by
  cases pc <;> simp_all [mainEffect]
  split <;> rfl

private theorem clocks_main {es : List (Event J)} {s : State J} {h : Handoff J} (e : Event J)
    (hi : s.handoff.Inv) (hc : Clocks cfg es s) (ht : s.tick = none)
    (hh : s.handoff.mainStep = some h) :
    Clocks cfg (es ++ [e]) { s with
      handoff := h
      alarm := mainEffect cfg s.handoff.main s.now s.alarm
      unit := if s.handoff.main = .ret then none else s.unit } := by
  obtain ⟨hin, hwrap, hout, hret⟩ := mainStep_next hh
  obtain ⟨hcalls, -⟩ := mainStep_calls hh
  have hstage := mainStep_stage hi hh
  refine ⟨?_, fun hm => absurd hm hwrap, ?_, by simp [ht], by simp [ht]⟩
  · intro u hu
    obtain ⟨hnr, hu⟩ : s.handoff.main ≠ .ret ∧ s.unit = some u := by simpa using hu
    obtain ⟨hle, -, hst⟩ := hc.unit u hu
    exact ⟨hle, fun ho => hnr (hout.mp ho), by simpa [hstage] using hst⟩
  · intro hno hnr
    have hmr : s.handoff.main ≠ .ret := fun hm => hno (hout.mpr hm)
    have hma : s.handoff.main ≠ .readArmed := fun hm => hnr (hret.mpr hm)
    obtain ⟨j, hj⟩ := hc.caller hin hmr
    refine ⟨j, List.mem_append_left _ ?_⟩
    rw [hcalls]
    convert hj using 2
    simp only [State.caller, hmr, if_false, mainEffect_armed, hma]
    cases hu : s.unit with
    | none =>
      have hmw : s.handoff.main ≠ .alarmWrap := fun hm => by simpa [hu] using hc.wrap hm
      simp [mainEffect_installed _ _ _ hmw]
    | some u => rfl

theorem rStep_main {h h' : Handoff J} (hs : h.rStep = some h') :
    h'.main = h.main ∨ h.main = .condWait ∧ h'.main = .relock := by
  cases Handoff.rStep_moves hs with
  | ackBroadcast => by_cases hm : h.main = .condWait <;> simp [hm]
  | _ => simp

/-- What leaves the call in progress and what was known at its start alone keeps the
clocks, if the tick knows what it should. -/
private theorem Clocks.keep {es : List (Event J)} {s s' : State J} (hc : Clocks cfg es s)
    (e : Event J) (hnow : s.now ≤ s'.now) (hunit : s'.unit = s.unit)
    (hcalls : s'.handoff.calls = s.handoff.calls)
    (hmain : s'.handoff.main = s.handoff.main ∨
      s.handoff.main = .condWait ∧ s'.handoff.main = .relock)
    (harmed : s'.alarm.armed = s.alarm.armed) (hinst : s'.alarm.installed = s.alarm.installed)
    (hstarted : 1 ≤ s'.handoff.stage → 1 ≤ s.handoff.stage ∧ s'.alarm.started = s.alarm.started ∨
      s'.alarm.started = s.now)
    (hticked : s'.tick.isSome = true → s.alarm.installed = true)
    (htick : ∀ pc, s'.tick = some pc → pc.Knows cfg (es ++ [e]) s') :
    Clocks cfg (es ++ [e]) s' := by
  refine ⟨?_, ?_, ?_, fun ht => hinst ▸ hticked ht, htick⟩
  · intro u hu
    obtain ⟨hle, hin, hst⟩ := hc.unit u (hunit ▸ hu)
    refine ⟨Timespec.le_trans hle hnow, ?_, ?_⟩
    · rcases hmain with hm | ⟨-, hm⟩ <;> simp [hm, hin]
    · intro hpos
      rcases hstarted hpos with ⟨hpos', heq⟩ | heq
      · exact heq ▸ hst hpos'
      · exact heq ▸ hle
  · intro hw
    rcases hmain with hm | ⟨-, hm⟩
    · exact hunit ▸ hc.wrap (hm ▸ hw)
    · simp [hm] at hw
  · intro hout hret
    have hcaller : s'.caller = s.caller := by simp [State.caller, hunit, harmed, hinst]
    have hprev : s.handoff.main ≠ .outside ∧ s.handoff.main ≠ .ret := by
      rcases hmain with hm | ⟨hm, -⟩
      · exact ⟨hm ▸ hout, hm ▸ hret⟩
      · simp [hm]
    obtain ⟨j, hj⟩ := hc.caller hprev.1 hprev.2
    exact ⟨j, List.mem_append_left _ (by rwa [hcaller, hcalls])⟩

private theorem clocks_rThread {es : List (Event J)} {s : State J} {h : Handoff J} (e : Event J)
    (hi : Inv s) (hc : Clocks cfg es s) (hh : s.handoff.rStep = some h) :
    Clocks cfg (es ++ [e]) { s with
      handoff := h
      alarm := rEffect s.unit.isSome s.handoff.r s.now s.alarm } := by
  obtain ⟨hcalls, -⟩ := rStep_calls hh
  refine hc.keep e (Timespec.le_refl _) rfl hcalls (rStep_main hh) (by simp) ?_ ?_ hc.installed ?_
  · cases hr : s.handoff.r <;> simp [rEffect] <;> split <;> rfl
  · intro hpos
    by_cases hr : s.handoff.r = .readStarted
    · exact .inr (by simp [hr])
    · exact .inl ⟨stage_pos_of_rStep hi.handoff hh hr hpos, by simp [hr]⟩
  · intro pc hpc
    cases hen : pc.engaged with
    | false => exact TickPc.knows_of_not_engaged hen
    | true =>
      -- the tick found the job running: the R thread is past this reading
      have hr : s.handoff.r ≠ .readStarted := by
        intro hr
        obtain ⟨-, hent⟩ := hi.tick pc hpc hen
        have hjob := (hi.handoff.fetched (by simp [hr, RPc.fetched])).2.1
        simp [hr, hjob, RPc.entered, RPc.inside] at hent
      exact (hc.tick pc hpc).keep [e] (Timespec.le_refl _) hcalls (by simp [hr]) (by simp)

/-- What the statement's successor may say. -/
private theorem knows_alarm {es : List (Event J)} {s : State J} {killFails letPass : Bool}
    {pc pc' : TickPc} (hr : (system J cfg).Run es s) (ht : s.tick = some pc)
    (hk : pc.Knows cfg es s) (hpc : (alarmStep cfg killFails letPass s pc).2.tick = some pc') :
    pc'.Knows cfg (es ++ [(alarmStep cfg killFails letPass s pc).1])
      (alarmStep cfg killFails letPass s pc).2 := by
  have hi := Run.inv hr
  cases pc with
  | armedTest =>
    simp only [alarmStep] at hpc ⊢
    split at hpc
    · obtain rfl : TickPc.readAge = pc' := by simpa [State.goto] using hpc
      simp [TickPc.Knows, TickPc.overdue]
    · rename_i hage
      obtain rfl : TickPc.chain (.young s.now) = pc' := by simpa [State.goto] using hpc
      simp only [hage, if_false]
      refine ⟨by simp, by simp [TickPc.overdue], ?_⟩
      intro r hr
      obtain rfl : s.now = r := by simpa using hr
      exact ⟨Timespec.le_refl _, Int.not_le.mp hage⟩
  | readAge =>
    obtain rfl : TickPc.runningLook (fuzzSecondsSince s.now s.alarm.started) = pc' := by
      simpa [alarmStep] using hpc
    refine ⟨?_, by simp [TickPc.overdue], by simp⟩
    intro age hage
    obtain rfl : fuzzSecondsSince s.now s.alarm.started = age := by simpa using hage
    have hst := Run.started_of_entered hr (hi.tick _ ht rfl)
    exact ⟨le_refl _, s.alarm.started, s.now,
      (List.singleton_sublist.mpr hst).append (List.Sublist.refl _), rfl⟩
  | runningLook age =>
    obtain ⟨hle, hread⟩ := hk.1 age rfl
    simp only [alarmStep] at hpc ⊢
    split at hpc
    · rename_i hrun
      simp only [hrun, if_true]
      have hnf := Run.not_finished_of_inside hr (hi.running ▸ hrun)
      refine ⟨?_, ?_, ?_⟩
      · rintro a rfl
        split at hpc <;> simp at hpc
      · intro hover
        have hage : age ≥ cfg.timeout := by
          by_contra hlt
          obtain rfl : TickPc.nanosleep = pc' := by simpa [hlt] using hpc
          simp [TickPc.overdue] at hover
        exact ⟨hage.le.trans hle, es, [], age, rfl, hread, hage, hnf⟩
      · rintro r rfl
        split at hpc <;> simp at hpc
    · obtain rfl : TickPc.storeFinishing = pc' := by simpa [State.goto] using hpc
      simp [TickPc.Knows, TickPc.overdue]
  | finishingTest =>
    simp only [alarmStep] at hpc ⊢
    split at hpc
    · simp at hpc
    · obtain rfl : TickPc.runningTest = pc' := by simpa [State.goto] using hpc
      simp [TickPc.Knows, TickPc.overdue]
  | runningTest =>
    simp only [alarmStep] at hpc ⊢
    split at hpc <;>
      (obtain rfl : _ = pc' := by simpa [State.goto] using hpc) <;>
      simp [TickPc.Knows, TickPc.overdue]
  | nanosleep =>
    obtain rfl : TickPc.readAge = pc' := by simpa [alarmStep, State.goto] using hpc
    simp [TickPc.Knows, TickPc.overdue]
  | storeFinishing => simp [alarmStep] at hpc
  | chain route => simp [alarmStep] at hpc
  | _ =>
    have hover : pc'.overdue = true := by
      simp only [alarmStep, State.goto] at hpc
      (repeat' split at hpc) <;> simp at hpc <;> subst hpc <;> rfl
    exact hk.next _ rfl hover (by simp) (by simp) (by simp)

theorem clocks_moves {es : List (Event J)} {s s' : State J} {e : Event J}
    (hr : (system J cfg).Run es s) (hc : Clocks cfg es s) (hs : Moves cfg s e s') :
    Clocks cfg (es ++ [e]) s' := by
  have hi := Run.inv hr
  have hkeep : ∀ pc, s.tick = some pc → pc.Knows cfg (es ++ [e]) s := fun pc hpc =>
    (hc.tick pc hpc).keep [e] (Timespec.le_refl _) rfl rfl rfl
  cases hs with
  | main h ht hh => exact clocks_main _ hi.handoff hc ht hh
  | rThread h hd hh => exact clocks_rThread _ hi hc hh
  | alarm killFails letPass pc hl ht =>
    exact hc.keep _ (by simpa using Timespec.le_refl _) (by simp) (by simp) (.inl (by simp))
      (by simp) (by simp) (fun hpos => .inl ⟨by simpa using hpos, by simp⟩)
      (fun _ => hc.installed (by simp [ht])) fun pc' => knows_alarm hr ht (hc.tick pc ht)
  | call j hm ht =>
    have hu : s.unit = none := by
      by_contra hne
      obtain ⟨u, hu⟩ := Option.ne_none_iff_exists'.mp hne
      exact (hc.unit u hu).2.1 hm
    refine ⟨by simp [hu], by simp [Handoff.enter], ?_, by simp [ht], by simp [ht]⟩
    exact fun _ _ => ⟨j, by simp [Handoff.enter, State.caller, hu]⟩
  | testOneInput j hm ht =>
    refine ⟨?_, by simp, ?_, by simp [ht], by simp [ht]⟩
    · intro u hu
      obtain rfl : s.now = u := by simpa using hu
      exact ⟨Timespec.le_refl _, by simp [Handoff.enter],
        by simp [Handoff.enter, Handoff.stage, MainPc.posting]⟩
    · exact fun _ _ => ⟨j, by simp [Handoff.enter, State.caller]⟩
  | tick ht hw =>
    refine hc.keep _ (Timespec.le_refl _) rfl rfl (.inl rfl) rfl rfl (fun h => .inl ⟨h, rfl⟩)
      (fun _ => hw) ?_
    rintro pc hpc
    obtain rfl : TickPc.finishingTest = pc := by simpa using hpc
    exact TickPc.knows_of_not_engaged rfl
  | advance t h =>
    exact hc.keep _ h rfl rfl (.inl rfl) rfl rfl (fun h => .inl ⟨h, rfl⟩) hc.installed
      fun pc hpc => (hc.tick pc hpc).keep _ h rfl rfl rfl
  | dump pc hd =>
    cases pc <;> exact hc.keep _ (Timespec.le_refl _) rfl rfl (.inl rfl) rfl rfl
      (fun h => .inl ⟨h, rfl⟩) hc.installed hkeep
  | wakeMain h hh =>
    obtain ⟨hm, rfl⟩ := Handoff.wakeMain_eq hh
    refine hc.keep _ (Timespec.le_refl _) rfl rfl (.inr ⟨hm, rfl⟩) rfl rfl
      (fun h => .inl ⟨?_, rfl⟩) hc.installed hkeep
    simpa [Handoff.stage, hm, MainPc.posting] using h
  | wakeRThread h hh =>
    obtain ⟨hm, rfl⟩ := Handoff.wakeR_eq hh
    refine hc.keep _ (Timespec.le_refl _) rfl rfl (.inl rfl) rfl rfl
      (fun h => .inl ⟨?_, rfl⟩) hc.installed hkeep
    simpa [Handoff.stage, hm, RPc.stage] using h
  | fork hm ht =>
    have hjob := (hi.handoff.quiet (by simp [hm, MainPc.quiet])).1
    refine hc.keep _ (Timespec.le_refl _) rfl ?_ (.inl ?_) rfl rfl (fun _ => .inl ⟨?_, rfl⟩)
      (by simp [ht]) (by simp [ht]) <;>
      by_cases ha : s.handoff.atforkRegistered = true <;>
      simp [Handoff.child, Handoff.forget, Handoff.stage, hm, hjob, ha, MainPc.posting]
  | label | deliverDump =>
    exact hc.keep _ (Timespec.le_refl _) rfl rfl (.inl rfl) rfl rfl (fun h => .inl ⟨h, rfl⟩)
      hc.installed hkeep

theorem Run.clocks {es : List (Event J)} {s : State J} (h : (system J cfg).Run es s) :
    Clocks cfg es s := by
  refine h.induct ?_ ?_
  · rintro s ⟨now, rfl⟩
    refine ⟨?_, ?_, ?_, ?_, ?_⟩ <;> simp [State.initial, Handoff.initial]
  · exact fun es s a e t hr hc hs => clocks_moves hr hc (step_moves hs).2

/-- A tick that has seen the job running finds the call's own reading of `armed`, and
libFuzzer's clock for it. -/
theorem Run.caller_of_engaged {es : List (Event J)} {s : State J} {pc : TickPc} {j : J}
    {c : Caller} (h : (system J cfg).Run es s) (ht : s.tick = some pc) (hp : pc.engaged = true)
    (hj : .called s.handoff.calls j c ∈ es) : s.caller = c := by
  have hmw := ((Run.inv h).tick pc ht hp).1
  obtain ⟨j', hj'⟩ := (Run.clocks h).caller (fun hm => by simp [hm, MainPc.awaiting] at hmw)
    (fun hm => by simp [hm, MainPc.awaiting] at hmw)
  have heq := Run.milestone_unique h hj' hj rfl rfl
  simp only [Event.called.injEq] at heq
  exact heq.2.2

end ROssFuzz.TimeoutAlarm
