import ROssFuzz.DumpCompleteness

/-!
# A dump belongs to its input

A dump handler publishes, at its end, the number it read at its start; a signal may be
delivered long after it was sent. The numbers keep the answers apart: what `done` shows
was requested under that number, and the request came before the dump began to print.
-/

namespace ROssFuzz.TimeoutAlarm
open RThreadHandoff TransitionRuns

variable {J : Type} {cfg : Config}

theorem moves_doneSeen {s s' : State J} {n : ℕ} (hs : Moves cfg s (.doneSeen n) s') :
    n = s.handoff.calls ∧ ∃ k i, s.tick = some (.doneTest k i) ∧ s.alarm.done = k := by
  obtain ⟨killFails, letPass, pc, ht, he, -⟩ := moves_ofAlarm hs rfl
  cases pc <;> simp only [alarmStep, State.goto] at he <;> (repeat' split at he) <;> simp_all

/-- The number of an input being run is never 0, however often the counter has wrapped.
Until it does, at most one request is made for each input, and a wait that ends because
`done` shows the input's number ends because `pthread_kill` failed for it or because a
dump that began to print after the input's own request has completed. Every call takes a
number, the one that initializes the target included. -/
theorem dumps_owned {es : List (Event J)} {s : State J} (h : (system J cfg).Run es s) :
    (s.alarm.running = true → s.alarm.input ≠ 0) ∧
      (s.handoff.calls < 2 ^ 32 →
        (∀ n, es.countP (Event.requests n) ≤ 1) ∧
          ∀ pre n post, es = pre ++ .doneSeen n :: post →
            .killFailed n ∈ pre ∨ Answered pre n) := by
  refine ⟨fun hr => ?_, fun hlt => ⟨(Run.requests h hlt).once, ?_⟩⟩
  · have hi := Run.inv h
    have hin : s.handoff.r.inside = true := by rwa [← hi.running]
    exact (Run.input_of_awaiting h (hi.handoff.fetched (RPc.fetched_of_inside hin)).1).1
  · rintro pre n post rfl
    obtain ⟨u, a, u', hpre, hstep, hpost⟩ := h.split
    have hmoves := (step_moves hstep).2
    obtain ⟨rfl, k, i, ht, hd⟩ := moves_doneSeen hmoves
    have hlt' : u.handoff.calls < 2 ^ 32 :=
      lt_of_le_of_lt ((moves_calls hmoves).trans (steps_calls hpost)) hlt
    obtain ⟨hk, hcall⟩ := Run.number_of_tick hpre ht rfl
    rw [hcall hlt'] at hd hk
    have hdone := (Run.requests hpre hlt').done
    rw [hd] at hdone
    exact hdone hk

/-- libFuzzer lets the first input's timeout pass; its dump is delivered while the second
input runs, and prints before the second request and completes after it. -/
def staleSchedule : List (Action Unit) := List.flatten
  [[.testOneInput ()], .replicate 11 .main, .replicate 8 .rThread,
    [.advance (.second 13), .tick], .replicate 10 (.alarm false false), .replicate 3 .rThread,
    .replicate 3 (.alarm false true), .replicate 4 .rThread, .replicate 6 .main,
    [.testOneInput ()], .replicate 8 .main, .replicate 8 .rThread,
    [.deliverDump, .dump, .dump, .dump, .advance (.second 16), .tick],
    .replicate 10 (.alarm false false), [.dump], .replicate 3 (.alarm false false),
    [.deliverDump], .replicate 4 .dump, [.alarm false false]]

def staleTrace : List (Event Unit) := List.flatten
  [[.called 1 () (.input .zero (.second 10))], .replicate 11 (.silent .main),
    .replicate 4 (.silent .rThread),
    [.started 1 (.second 10), .runningSet 1, .executed 1 (), .silent .rThread, .silent .clock,
      .ticked true, .silent .alarm, .silent .alarm, .silent .alarm, .ageRead 1 (.second 13),
      .sawRunning 1, .silent .alarm, .silent .alarm, .requested 1 1, .silent .alarm,
      .silent .alarm, .silent .rThread, .silent .rThread, .finished 1, .silent .alarm,
      .silent .alarm, .chained 1 (.held 1) (.second 13) true],
    .replicate 4 (.silent .rThread), .replicate 5 (.silent .main),
    [.returned 1, .called 2 () (.input (.second 13) (.second 13))],
    .replicate 8 (.silent .main), .replicate 4 (.silent .rThread),
    [.started 2 (.second 13), .runningSet 2, .executed 2 (), .silent .rThread, .silent .dump,
      .silent .dump, .silent .dump, .dumpPrinted 0 1 none, .silent .clock, .ticked true,
      .silent .alarm, .silent .alarm, .silent .alarm, .ageRead 2 (.second 16), .sawRunning 2,
      .silent .alarm, .silent .alarm, .requested 2 2, .silent .alarm, .silent .alarm,
      .dumpDone 0 1, .silent .alarm, .silent .alarm, .silent .alarm, .silent .dump,
      .silent .dump, .silent .dump, .dumpPrinted 1 2 none, .dumpDone 1 2]]

theorem dumps_owned_stale : .killFailed 2 ∈ staleTrace ∨ Answered staleTrace 2 := by
  obtain ⟨s, h, hs⟩ : ∃ s, (system Unit { threeSeconds with lenient := true }).Run
      (staleTrace ++ .doneSeen 2 :: []) s ∧ s.handoff.calls = 2 :=
    run_of_schedule (.second 10) staleSchedule (by decide +kernel)
  exact ((dumps_owned h).2 (by omega)).2 staleTrace 2 [] rfl

end ROssFuzz.TimeoutAlarm
