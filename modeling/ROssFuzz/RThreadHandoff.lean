import Mathlib.Data.Nat.Notation

/-!
# The handoff between the main thread and the R thread

`fuzz_run_on_r_thread` and `fuzz_r_thread_main`, statement by statement, with the
mutex, the one condition variable and the `job` field they share. A program counter
names the statement a thread executes next. A thread in `condWait` has released the
mutex and sleeps until a broadcast or a spurious wake-up; one in `relock` is awake
inside `pthread_cond_wait` and wants the mutex back.

Statements that touch only the alarm's variables are counters here without an effect
on this part of the state; `TimeoutAlarm` gives them theirs.
-/

namespace ROssFuzz.RThreadHandoff

inductive Thread | main | rThread deriving DecidableEq

/-- The main thread. `outside` is everything but the call: libFuzzer's loop, or the
body of `LLVMFuzzerInitialize` and of a test. -/
inductive MainPc
  | outside | alarmWrap
  | startedTest | atfork | create | setStarted
  | bumpInput | skipZero | lock | postJob | postBroadcast
  | jobTest | condWait | relock | unlock
  | clearFinishing | readArmed | ret
  deriving DecidableEq

/-- The R thread. `labelReset`, `runJob` and `labelClear` are `job->fn(job->arg)`. -/
inductive RPc
  | absent | firstLock | jobTest | condWait | relock | takeJob | unlock
  | readStarted | setRunning | readJob | labelReset | runJob | labelClear | clearRunning
  | lock | clearJob | ackBroadcast
  deriving DecidableEq

/-- `J` is what a job says to do, its `fn` and `arg`. Calls are numbered in the order
they are made, and `job` points at the stack frame of the call with that number. -/
structure Handoff (J : Type) where
  atforkRegistered : Bool
  started : Bool
  mutex : Option Thread
  job : Option ℕ
  /-- The caller's `job` variable, while its frame is alive. -/
  frame : Option J
  main : MainPc
  r : RPc
  /-- The R thread's own copy of the pointer. -/
  taken : ℕ
  calls : ℕ
  /-- How many times this process has called `pthread_create`. -/
  created : ℕ
  deriving DecidableEq

variable {J : Type}

/-- Static storage before the first call. -/
def Handoff.initial : Handoff J where
  atforkRegistered := false
  started := false
  mutex := none
  job := none
  frame := none
  main := .outside
  r := .absent
  taken := 0
  calls := 0
  created := 0

namespace Handoff

/-- The main thread enters the call, or `LLVMFuzzerTestOneInput` before it. -/
def enter (h : Handoff J) (entry : MainPc) (j : J) : Handoff J :=
  { h with main := entry, frame := some j, calls := h.calls + 1 }

/-- One statement of `fuzz_run_on_r_thread`, `none` where the main thread blocks.
The caller is never the R thread itself here: for that one the call is `fn(arg)`. -/
def mainStep (h : Handoff J) : Option (Handoff J) :=
  match h.main with
  | .outside => none
  | .alarmWrap => some { h with main := .startedTest }
  | .startedTest => some { h with main :=
      if h.started then .bumpInput else if h.atforkRegistered then .create else .atfork }
  | .atfork => some { h with atforkRegistered := true, main := .create }
  | .create => some { h with r := .firstLock, created := h.created + 1, main := .setStarted }
  | .setStarted => some { h with started := true, main := .bumpInput }
  | .bumpInput => some { h with main := .skipZero }
  | .skipZero => some { h with main := .lock }
  | .lock => if h.mutex = none then some { h with mutex := some .main, main := .postJob } else none
  | .postJob => some { h with job := some h.calls, main := .postBroadcast }
  | .postBroadcast => some { h with
      r := if h.r = .condWait then .relock else h.r, main := .jobTest }
  | .jobTest => some <|
      if h.job = none then { h with main := .unlock }
      else { h with mutex := none, main := .condWait }
  | .condWait => none
  | .relock => if h.mutex = none then some { h with mutex := some .main, main := .jobTest } else none
  | .unlock => some { h with mutex := none, main := .clearFinishing }
  | .clearFinishing => some { h with main := .readArmed }
  | .readArmed => some { h with main := .ret }
  | .ret => some { h with main := .outside, frame := none }

/-- One statement of `fuzz_r_thread_main`, `none` where the R thread blocks. -/
def rStep (h : Handoff J) : Option (Handoff J) :=
  match h.r with
  | .absent => none
  | .firstLock => if h.mutex = none then some { h with mutex := some .rThread, r := .jobTest } else none
  | .jobTest => some <|
      if h.job = none then { h with mutex := none, r := .condWait } else { h with r := .takeJob }
  | .condWait => none
  | .relock => if h.mutex = none then some { h with mutex := some .rThread, r := .jobTest } else none
  | .takeJob => some { h with taken := h.job.getD 0, r := .unlock }
  | .unlock => some { h with mutex := none, r := .readStarted }
  | .readStarted => some { h with r := .setRunning }
  | .setRunning => some { h with r := .readJob }
  | .readJob => some { h with r := .labelReset }
  | .labelReset => some { h with r := .runJob }
  | .runJob => some { h with r := .labelClear }
  | .labelClear => some { h with r := .clearRunning }
  | .clearRunning => some { h with r := .lock }
  | .lock => if h.mutex = none then some { h with mutex := some .rThread, r := .clearJob } else none
  | .clearJob => some { h with job := none, r := .ackBroadcast }
  | .ackBroadcast => some { h with
      main := if h.main = .condWait then .relock else h.main, r := .jobTest }

/-- `pthread_cond_wait` may wake the main thread for no reason. -/
def wakeMain (h : Handoff J) : Option (Handoff J) :=
  if h.main = .condWait then some { h with main := .relock } else none

/-- `pthread_cond_wait` may wake the R thread for no reason. -/
def wakeR (h : Handoff J) : Option (Handoff J) :=
  if h.r = .condWait then some { h with r := .relock } else none

/-- `fuzz_r_thread_forget`, the registered child side of `fork`. -/
def forget (h : Handoff J) : Handoff J :=
  { h with started := false, job := none, mutex := none }

/-- The child of a fork: only the forking thread survives, and the handler runs if it
has been registered. -/
def child (h : Handoff J) : Handoff J :=
  { if h.atforkRegistered then h.forget else h with r := .absent, created := 0 }

/-- The job the R thread finds through its pointer: the frame of the call it took the
pointer from, if that call is still the one in progress and has not returned. -/
def readJob (h : Handoff J) : Option J :=
  if h.taken = h.calls then h.frame else none

end Handoff
end ROssFuzz.RThreadHandoff
