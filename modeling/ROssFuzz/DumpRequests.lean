import ROssFuzz.TimeoutAlarmClocks

/-!
# Numbering the inputs

Each call takes the next number from a 32-bit counter that steps over 0. The number in
the handler's hands is the counter's, since the thread that counts is the one suspended
under it, so it is never 0; and until the counter comes round it is the number of the
call, and tells one input's request from another's.
-/

namespace ROssFuzz
open RThreadHandoff TransitionRuns

namespace RThreadHandoff

/-- The call has still to take its number. -/
@[grind] def MainPc.unnumbered : MainPc → Bool
  | .alarmWrap | .startedTest | .atfork | .create | .setStarted | .bumpInput => true
  | _ => false

end RThreadHandoff

namespace TimeoutAlarm
variable {J : Type} {cfg : Config}

/-- The handler's local variable `input`. -/
@[simp] def TickPc.number : TickPc → Option ℕ
  | .requestedTest k | .storeRequested k | .writeHeader k | .killRThread k | .storeDone k
  | .doneTest k _ | .stillRunningTest k _ | .waitNanosleep k _ | .chain (.held k) => some k
  | _ => none

/-- A request for the input in progress has been made, by this tick or before. -/
@[grind] def TickPc.asked : TickPc → Bool
  | .writeHeader _ | .killRThread _ | .storeDone _ | .doneTest _ _ | .stillRunningTest _ _
  | .waitNanosleep _ _ | .chain (.held _) => true
  | _ => false

theorem TickPc.engaged_of_overdue {pc : TickPc} (h : pc.overdue = true) : pc.engaged = true := by
  cases pc with
  | chain route => cases route <;> simp_all [TickPc.engaged, TickPc.overdue]
  | _ => simp_all [TickPc.engaged, TickPc.overdue]

structure Numbered (s : State J) : Prop where
  nonzero : s.handoff.main ≠ .outside → s.handoff.main.unnumbered = false →
    s.handoff.main ≠ .skipZero → s.alarm.input ≠ 0
  number : ∀ pc k, s.tick = some pc → pc.number = some k → k = s.alarm.input
  exact : s.handoff.calls < 2 ^ 32 →
    s.alarm.input = if s.handoff.main.unnumbered then s.handoff.calls - 1 else s.handoff.calls

theorem bump_ne_zero {k : ℕ} (h : k = 0) : bump k ≠ 0 := by
  subst h
  decide

/-- The two statements of the call that number the input, and the others, which leave the
number and whether there is one. -/
private theorem numbers_cases {h h' : Handoff J} (hs : h.mainStep = some h') :
    h.main = .bumpInput ∧ h'.main = .skipZero ∨ h.main = .skipZero ∧ h'.main = .lock ∨
      (h.main ≠ .bumpInput ∧ h.main ≠ .skipZero) ∧ h.main ≠ .outside ∧
        h'.main ≠ .skipZero ∧ h'.main.unnumbered = h.main.unnumbered := by
  cases Handoff.mainStep_moves hs with
  | bumpInput hm => exact .inl ⟨hm, rfl⟩
  | skipZero hm => exact .inr (.inl ⟨hm, rfl⟩)
  | _ hm => simp [hm, MainPc.unnumbered]

private theorem numbered_main {s : State J} {h : Handoff J} (hn : Numbered s)
    (hcalls : 0 < s.handoff.calls) (ht : s.tick = none) (hh : s.handoff.mainStep = some h) :
    Numbered { s with
      handoff := h
      alarm := mainEffect cfg s.handoff.main s.now s.alarm
      unit := if s.handoff.main = .ret then none else s.unit } := by
  obtain ⟨hnz, -, hex⟩ := hn
  have hbump (hlt : s.handoff.calls < 2 ^ 32) :
      bump (s.handoff.calls - 1) = s.handoff.calls := by
    rw [bump, Nat.mod_eq_of_lt (by omega)]
    omega
  have hcallsEq := (mainStep_calls hh).1
  rcases numbers_cases hh with ⟨hm, hm'⟩ | ⟨hm, hm'⟩ | ⟨⟨hb, hz⟩, hout, hz', hsame⟩
  · -- the number is taken
    refine ⟨fun _ _ hz => absurd hm' hz, by simp [ht], fun hlt => ?_⟩
    simp only [hcallsEq] at hlt ⊢
    simp [hm, hm', MainPc.unnumbered, hex hlt, hbump hlt]
  · -- 0 is no number; it is left out only when the counter has wrapped
    refine ⟨fun _ _ _ => ?_, by simp [ht], fun hlt => ?_⟩
    · simp only [hm, mainEffect_input]
      split
      case isTrue h => exact bump_ne_zero (by simpa using h)
      case isFalse h => exact fun h0 => h (by simpa using h0)
    · simp only [hcallsEq] at hlt ⊢
      have hin := hex hlt
      simp only [hm, MainPc.unnumbered] at hin
      have hpos : s.alarm.input ≠ 0 := by simp at hin; omega
      simp [hm, hm', MainPc.unnumbered, hpos]
      simpa using hin
  · refine ⟨fun hout' hnum _ => ?_, by simp [ht], fun hlt => ?_⟩
    · simpa [hb, hz] using hnz hout (hsame ▸ hnum) hz
    · simp only [hcallsEq] at hlt ⊢
      simpa [hb, hz, hsame] using hex hlt

private theorem Numbered.keep {s s' : State J} (hn : Numbered s)
    (hcalls : s'.handoff.calls = s.handoff.calls)
    (hmain : s'.handoff.main = s.handoff.main ∨
      s.handoff.main = .condWait ∧ s'.handoff.main = .relock)
    (hinput : s'.alarm.input = s.alarm.input)
    (hnum : ∀ pc k, s'.tick = some pc → pc.number = some k → k = s.alarm.input) :
    Numbered s' := by
  obtain ⟨hnz, -, hex⟩ := hn
  refine ⟨?_, fun pc k ht hk => hinput ▸ hnum pc k ht hk, ?_⟩ <;>
    rcases hmain with hm | ⟨hm, hm'⟩ <;> grind

/-- The handler never changes the number it has read. -/
private theorem number_alarm {s : State J} {killFails letPass : Bool} {pc pc' : TickPc} {k : ℕ}
    (hpc : (alarmStep cfg killFails letPass s pc).2.tick = some pc') (hk : pc'.number = some k) :
    pc.number = some k ∨ k = s.alarm.input := by
  cases pc <;> simp only [alarmStep, State.goto] at hpc <;> (repeat' split at hpc) <;>
    simp at hpc <;> subst hpc <;> simp at hk <;> simp [hk]

theorem numbered_moves {es : List (Event J)} {s s' : State J} {e : Event J}
    (hr : (system J cfg).Run es s) (hn : Numbered s) (hs : Moves cfg s e s') : Numbered s' := by
  cases hs with
  | main h ht hh => exact numbered_main hn (Run.calls_pos hr (mainStep_next hh).1) ht hh
  | rThread h hd hh =>
    exact hn.keep (rStep_calls hh).1 (rStep_main hh) (by simp) (by simpa using hn.number)
  | call j hm ht | testOneInput j hm ht =>
    have hex := hn.exact
    refine ⟨?_, by simp [ht], ?_⟩ <;> grind [Handoff.enter]
  | alarm killFails letPass pc hl ht =>
    refine hn.keep (by simp) (.inl (by simp)) (by simp) fun pc' k hpc hk => ?_
    rcases number_alarm hpc hk with h | h
    · exact hn.number pc k ht h
    · exact h
  | tick ht hw =>
    refine hn.keep rfl (.inl rfl) rfl ?_
    rintro pc k hpc hk
    obtain rfl : TickPc.finishingTest = pc := by simpa using hpc
    simp at hk
  | dump pc hd => cases pc <;> exact hn.keep rfl (.inl rfl) rfl hn.number
  | wakeMain h hh =>
    obtain ⟨hm, rfl⟩ := Handoff.wakeMain_eq hh
    exact hn.keep rfl (.inr ⟨hm, rfl⟩) rfl hn.number
  | wakeRThread h hh =>
    obtain ⟨hm, rfl⟩ := Handoff.wakeR_eq hh
    exact hn.keep rfl (.inl rfl) rfl hn.number
  | fork hm ht =>
    refine hn.keep ?_ (.inl ?_) rfl (by simp [ht]) <;>
      by_cases ha : s.handoff.atforkRegistered = true <;>
      simp [Handoff.child, Handoff.forget, ha]
  | advance | label | deliverDump => exact hn.keep rfl (.inl rfl) rfl hn.number

theorem Run.numbered {es : List (Event J)} {s : State J} (h : (system J cfg).Run es s) :
    Numbered s := by
  refine h.induct (I := fun _ s => Numbered s) ?_ ?_
  · rintro s ⟨now, rfl⟩
    refine ⟨?_, ?_, ?_⟩ <;> simp [State.initial, Handoff.initial, MainPc.unnumbered]
  · exact fun es s a e t hr hn hs => numbered_moves hr hn (step_moves hs).2

/-- While a job runs, the counter holds its number. -/
theorem Run.input_of_awaiting {es : List (Event J)} {s : State J}
    (h : (system J cfg).Run es s) (hm : s.handoff.main.awaiting = true) :
    s.alarm.input ≠ 0 ∧ (s.handoff.calls < 2 ^ 32 → s.alarm.input = s.handoff.calls) := by
  obtain ⟨hnz, -, hex⟩ := Run.numbered h
  cases hp : s.handoff.main <;> grind

/-- The number a tick works with is not 0, and is the call's until the counter wraps. -/
theorem Run.number_of_tick {es : List (Event J)} {s : State J} {pc : TickPc} {k : ℕ}
    (h : (system J cfg).Run es s) (ht : s.tick = some pc) (hk : pc.number = some k) :
    k ≠ 0 ∧ (s.handoff.calls < 2 ^ 32 → k = s.handoff.calls) := by
  have hen : pc.engaged = true := by
    cases pc with
    | chain route => cases route <;> simp_all [TickPc.engaged]
    | _ => simp_all [TickPc.engaged]
  rw [(Run.numbered h).number pc k ht hk]
  exact Run.input_of_awaiting h ((Run.inv h).tick pc ht hen).1

/-! ### Requests and answers -/

def Event.requests (n : ℕ) : Event J → Bool
  | .requested m _ => m == n
  | _ => false

/-- A dump that began to print after the call's own request has completed. -/
def Answered (es : List (Event J)) (n : ℕ) : Prop :=
  ∃ d label, List.Sublist [.requested n n, .dumpPrinted d n label, .dumpDone d n] es

/-- What the dump in progress, the `d`-th, says about the request it read. -/
def DumpPc.Knows (es : List (Event J)) (d : ℕ) : DumpPc → Prop
  | .loadRequested => True
  | .loadLabel k | .print k _ => k ≠ 0 → .requested k k ∈ es
  | .storeDone k => k ≠ 0 → ∃ label, List.Sublist [.requested k k, .dumpPrinted d k label] es

/-- As long as the counter has not come round. -/
structure Requests (es : List (Event J)) (s : State J) : Prop where
  own : ∀ n k, .requested n k ∈ es → k = n ∧ n ≤ s.alarm.requested
  latest : s.alarm.requested ≠ 0 → .requested s.alarm.requested s.alarm.requested ∈ es
  le_calls : s.alarm.requested ≤ s.handoff.calls
  once : ∀ n, es.countP (Event.requests n) ≤ 1
  dump : ∀ pc, s.dump = some pc → pc.Knows es s.dumps
  done : s.alarm.done ≠ 0 → .killFailed s.alarm.done ∈ es ∨ Answered es s.alarm.done
  store : ∀ k, s.tick = some (.storeRequested k) → s.alarm.requested ≠ k
  asked : ∀ pc, s.tick = some pc → pc.asked = true →
    .requested s.handoff.calls s.handoff.calls ∈ es

theorem Answered.append {es : List (Event J)} {n : ℕ} (h : Answered es n)
    (fs : List (Event J)) : Answered (es ++ fs) n := by
  obtain ⟨d, l, hsub⟩ := h
  exact ⟨d, l, hsub.trans (List.sublist_append_left es fs)⟩

theorem DumpPc.Knows.append {es : List (Event J)} {d : ℕ} {pc : DumpPc} (h : pc.Knows es d)
    (fs : List (Event J)) : pc.Knows (es ++ fs) d := by
  cases pc with
  | loadRequested => trivial
  | loadLabel k | print k l => exact fun hk => List.mem_append_left _ (h hk)
  | storeDone k =>
    intro hk
    obtain ⟨l, hsub⟩ := h hk
    exact ⟨l, hsub.trans (List.sublist_append_left es fs)⟩

/-- What makes no request and answers none keeps both accounts. -/
private theorem Requests.keep {es : List (Event J)} {s s' : State J} (hq : Requests es s)
    {e : Event J} (he : ∀ n k, e ≠ .requested n k)
    (hreq : s'.alarm.requested = s.alarm.requested)
    (hcalls : s.handoff.calls ≤ s'.handoff.calls)
    (hdone : s'.alarm.done ≠ 0 → s'.alarm.done = s.alarm.done ∨
      .killFailed s'.alarm.done ∈ es ++ [e] ∨ Answered (es ++ [e]) s'.alarm.done)
    (hdump : ∀ pc, s'.dump = some pc → pc.Knows (es ++ [e]) s'.dumps)
    (hstore : ∀ k, s'.tick = some (.storeRequested k) → s.alarm.requested ≠ k)
    (hasked : ∀ pc, s'.tick = some pc → pc.asked = true →
      .requested s'.handoff.calls s'.handoff.calls ∈ es) :
    Requests (es ++ [e]) s' := by
  have hmem : ∀ n k, .requested n k ∈ es ++ [e] ↔ .requested n k ∈ es := by
    intro n k
    simp [(he n k).symm]
  refine ⟨?_, ?_, ?_, ?_, hdump, ?_, fun k hk => hreq ▸ hstore k hk,
    fun pc ht ha => List.mem_append_left _ (hasked pc ht ha)⟩
  · intro n k h
    rw [hreq]
    exact hq.own n k ((hmem n k).mp h)
  · rw [hreq]
    exact fun h => List.mem_append_left _ (hq.latest h)
  · rw [hreq]
    exact hq.le_calls.trans hcalls
  · intro n
    have hnot : e.requests n = false := by
      cases e <;> simp_all [Event.requests]
    simpa [List.countP_append, hnot] using hq.once n
  · intro hd
    rcases hdone hd with heq | h
    · rw [heq] at hd ⊢
      rcases hq.done hd with h | h
      · exact .inl (List.mem_append_left _ h)
      · exact .inr (h.append [e])
    · exact h

/-- The one statement that makes a request: it is the first for this call. -/
private theorem requests_store {es : List (Event J)} {s : State J} (hq : Requests es s)
    (ht : s.tick = some (.storeRequested s.handoff.calls)) :
    Requests (es ++ [.requested s.handoff.calls s.handoff.calls]) { s with
      alarm := { s.alarm with requested := s.handoff.calls }
      tick := some (.writeHeader s.handoff.calls) } := by
  have hne := hq.store _ ht
  have hle := hq.le_calls
  refine ⟨?_, ?_, le_refl _, ?_, ?_, ?_, by simp, ?_⟩
  · intro n k h
    rcases List.mem_append.mp h with h | h
    · obtain ⟨hk, hn⟩ := hq.own n k h
      exact ⟨hk, hn.trans hle⟩
    · obtain ⟨rfl, rfl⟩ : n = s.handoff.calls ∧ k = s.handoff.calls := by simpa using h
      exact ⟨rfl, le_refl _⟩
  · simp
  · intro n
    have hprev := hq.once n
    by_cases hn : s.handoff.calls = n
    · have hzero : es.countP (Event.requests n) = 0 := by
        refine List.countP_eq_zero.mpr fun e he hreq => ?_
        cases e with
        | requested m k =>
          obtain rfl : m = n := by simpa [Event.requests] using hreq
          have hm := (hq.own m k he).2
          omega
        | _ => simp [Event.requests] at hreq
      simp [List.countP_append, hzero, Event.requests, hn]
    · simpa [List.countP_append, Event.requests, hn] using hprev
  · exact fun pc hd => (hq.dump pc hd).append _
  · intro hd
    rcases hq.done hd with h | h
    · exact .inl (List.mem_append_left _ h)
    · exact .inr (h.append _)
  · simp

private theorem requests_alarm {es : List (Event J)} {s : State J} {killFails letPass : Bool}
    {pc : TickPc} (hr : (system J cfg).Run es s) (hq : Requests es s) (ht : s.tick = some pc)
    (hlt : s.handoff.calls < 2 ^ 32) :
    Requests (es ++ [(alarmStep cfg killFails letPass s pc).1])
      (alarmStep cfg killFails letPass s pc).2 := by
  have hnum : ∀ k, pc.number = some k → k ≠ 0 ∧ k = s.handoff.calls := fun k hk =>
    (Run.number_of_tick hr ht hk).imp_right fun h => h hlt
  have hdump : ∀ e : Event J, ∀ dpc, s.dump = some dpc → dpc.Knows (es ++ [e]) s.dumps :=
    fun e dpc hd => (hq.dump dpc hd).append _
  have hdone : ∀ e : Event J, s.alarm.done ≠ 0 → s.alarm.done = s.alarm.done ∨
      .killFailed s.alarm.done ∈ es ++ [e] ∨ Answered (es ++ [e]) s.alarm.done :=
    fun _ _ => .inl rfl
  have hasked := hq.asked pc ht
  cases pc with
  | storeRequested k =>
    obtain ⟨-, rfl⟩ := hnum k rfl
    exact requests_store hq ht
  | requestedTest k =>
    obtain ⟨hk, rfl⟩ := hnum k rfl
    simp only [alarmStep]
    split
    · rename_i hne
      refine hq.keep (by simp [State.goto]) rfl (le_refl _) (hdone _) (hdump _) ?_ ?_
      · intro k hk
        obtain rfl : s.handoff.calls = k := by simpa [State.goto] using hk
        exact hne
      · simp [State.goto, TickPc.asked]
    · -- asked before: the number is this call's own
      rename_i heq
      have heq : s.alarm.requested = s.handoff.calls := by simpa using heq
      have hlatest := hq.latest (by rwa [heq])
      rw [heq] at hlatest
      exact hq.keep (by simp [State.goto]) rfl (le_refl _) (hdone _) (hdump _)
        (by simp [State.goto]) fun _ _ _ => hlatest
  | storeDone k =>
    obtain ⟨-, rfl⟩ := hnum k rfl
    exact hq.keep (by simp [alarmStep]) rfl (le_refl _)
      (fun _ => .inr (.inl (by simp [alarmStep]))) (hdump _) (by simp [alarmStep])
      fun _ _ _ => hasked rfl
  | writeHeader k | killRThread k | doneTest k i | stillRunningTest k i | waitNanosleep k i =>
    have hpast := hasked rfl
    simp only [alarmStep, State.goto]
    (repeat' split) <;>
      exact hq.keep (by simp) rfl (le_refl _) (hdone _) (hdump _) (by simp) fun _ _ _ => hpast
  | _ =>
    simp only [alarmStep, State.goto]
    (repeat' split) <;>
      exact hq.keep (by simp) rfl (le_refl _) (hdone _) (hdump _) (by simp)
        (by simp [TickPc.asked])

private theorem requests_dump {es : List (Event J)} {s : State J} {pc : DumpPc}
    (hq : Requests es s) (hd : s.dump = some pc) :
    Requests (es ++ [(dumpStep s pc).1]) (dumpStep s pc).2 := by
  have hk := hq.dump pc hd
  cases pc with
  | loadRequested =>
    refine hq.keep (by simp [dumpStep]) rfl (le_refl _) (fun _ => .inl rfl) ?_ hq.store hq.asked
    rintro pc hpc
    obtain rfl : DumpPc.loadLabel s.alarm.requested = pc := by simpa [dumpStep] using hpc
    exact fun hne => List.mem_append_left _ (hq.latest hne)
  | loadLabel k =>
    refine hq.keep (by simp [dumpStep]) rfl (le_refl _) (fun _ => .inl rfl) ?_ hq.store hq.asked
    rintro pc hpc
    obtain rfl : DumpPc.print k s.alarm.label = pc := by simpa [dumpStep] using hpc
    exact fun hne => List.mem_append_left _ (hk hne)
  | print k l =>
    refine hq.keep (by simp [dumpStep]) rfl (le_refl _) (fun _ => .inl rfl) ?_ hq.store hq.asked
    rintro pc hpc
    obtain rfl : DumpPc.storeDone k = pc := by simpa [dumpStep] using hpc
    exact fun hne => ⟨l, (List.singleton_sublist.mpr (hk hne)).append (List.Sublist.refl _)⟩
  | storeDone k =>
    refine hq.keep (by simp [dumpStep]) rfl (le_refl _) (fun hne => .inr (.inr ?_))
      (by simp [dumpStep]) hq.store hq.asked
    obtain ⟨l, hsub⟩ := hk hne
    exact ⟨s.dumps, l, hsub.append (List.Sublist.refl _)⟩

theorem moves_calls {s s' : State J} {e : Event J} (hs : Moves cfg s e s') :
    s.handoff.calls ≤ s'.handoff.calls := by
  cases hs with
  | main h ht hh => exact (mainStep_calls hh).1.ge
  | rThread h hd hh => exact (rStep_calls hh).1.ge
  | alarm => simp
  | call | testOneInput => exact Nat.le_succ _
  | dump pc hd => cases pc <;> exact le_refl _
  | wakeMain h hh => exact (Handoff.wakeMain_eq hh).2 ▸ le_refl _
  | wakeRThread h hh => exact (Handoff.wakeR_eq hh).2 ▸ le_refl _
  | fork =>
    by_cases ha : s.handoff.atforkRegistered = true <;> simp [Handoff.child, Handoff.forget, ha]
  | advance | label | tick | deliverDump => exact le_refl _

theorem steps_calls {es : List (Event J)} {s u : State J} (h : (system J cfg).Steps s es u) :
    s.handoff.calls ≤ u.handoff.calls :=
  h.preserve (P := fun t => s.handoff.calls ≤ t.handoff.calls)
    (fun _ _ _ _ hle hs => hle.trans (moves_calls (step_moves hs).2)) (le_refl _)

theorem requests_moves {es : List (Event J)} {s s' : State J} {e : Event J}
    (hr : (system J cfg).Run es s) (hq : Requests es s) (hlt : s.handoff.calls < 2 ^ 32)
    (hs : Moves cfg s e s') : Requests (es ++ [e]) s' := by
  have hcalls := moves_calls hs
  have hdump : ∀ e : Event J, ∀ pc, s.dump = some pc → pc.Knows (es ++ [e]) s.dumps :=
    fun e pc hd => (hq.dump pc hd).append _
  cases hs with
  | alarm killFails letPass pc hl ht => exact requests_alarm hr hq ht hlt
  | dump pc hd => exact requests_dump hq hd
  | main h ht hh =>
    have he : ∀ n k, mainEvent s.handoff ≠ .requested n k := fun n k =>
      ne_of_apply_ne Event.actor (by rw [mainEvent_actor]; nofun)
    exact hq.keep he (by simp) hcalls (by simp) (hdump _) (by simp [ht]) (by simp [ht])
  | rThread h hd hh =>
    have he : ∀ n k, rEvent s.handoff s.now ≠ .requested n k := fun n k =>
      ne_of_apply_ne Event.actor (by rw [rEvent_actor]; nofun)
    refine hq.keep he (by simp) hcalls (by simp) (by simp [hd]) hq.store ?_
    simpa only [(rStep_calls hh).1] using hq.asked
  | call j hm ht | testOneInput j hm ht =>
    exact hq.keep (by simp) rfl hcalls (fun _ => .inl rfl) (hdump _) (by simp [ht]) (by simp [ht])
  | fork hm ht =>
    exact hq.keep (by simp) rfl hcalls (fun _ => .inl rfl) (by simp) (by simp [ht]) (by simp [ht])
  | tick ht hw =>
    exact hq.keep (by simp) rfl hcalls (fun _ => .inl rfl) (hdump _) (by simp)
      (by simp [TickPc.asked])
  | deliverDump hd hp hr' =>
    refine hq.keep (by simp) rfl hcalls (fun _ => .inl rfl) ?_ hq.store hq.asked
    rintro pc hpc
    obtain rfl : DumpPc.loadRequested = pc := by simpa using hpc
    trivial
  | wakeMain h hh =>
    refine hq.keep (by simp) rfl hcalls (fun _ => .inl rfl) (hdump _) hq.store ?_
    simpa only [(Handoff.wakeMain_eq hh).2] using hq.asked
  | wakeRThread h hh =>
    refine hq.keep (by simp) rfl hcalls (fun _ => .inl rfl) (hdump _) hq.store ?_
    simpa only [(Handoff.wakeR_eq hh).2] using hq.asked
  | advance | label =>
    exact hq.keep (by simp) rfl hcalls (fun _ => .inl rfl) (hdump _) hq.store hq.asked

theorem Run.requests {es : List (Event J)} {s : State J} (h : (system J cfg).Run es s)
    (hlt : s.handoff.calls < 2 ^ 32) : Requests es s := by
  refine h.induct (I := fun es s => s.handoff.calls < 2 ^ 32 → Requests es s) ?_ ?_ hlt
  · rintro s ⟨now, rfl⟩ -
    refine ⟨?_, ?_, ?_, ?_, ?_, ?_, ?_, ?_⟩ <;> simp [State.initial]
  · intro es s a e t hr hq hs hlt
    have hmoves := (step_moves hs).2
    have hlt' := lt_of_le_of_lt (moves_calls hmoves) hlt
    exact requests_moves hr (hq hlt') hlt' hmoves

end TimeoutAlarm
end ROssFuzz
