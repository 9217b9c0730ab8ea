import ROssFuzz.OwningVariables
import Mathlib.Algebra.Order.Ring.Nat

/-!
# String buffers and contexts

`deparse`, the readers of `load` and `scan` each write into an `R_StringBuffer`, which is
allocated when it is first written to and moved when it has to grow. An error unwinds past the
function that frees it, to a context that does: in `deparse1WithCutoff` and `R_LoadFromFile` one
of their own, in `scan` that of its caller, whose cleanup `scan_cleanup` finds the buffer through a
pointer into the frame of the function that reads.
-/

namespace ROssFuzz.StringBuffers
open OwnedCode OwnedCode.Code Resources

/-! ### Buffers -/

section Buffers
variable {ν ρ : Type} [DecidableEq ν] {pre : Locals ν ρ → Prop}
  {post : Option Unit → Locals ν ρ → Prop}

/-- `R_AllocStringBuffer`, which moves the buffer or leaves it. -/
def allocStringBuffer (buf : ν) : Code (Locals ν ρ) Unit := do
  if (← get).ptr buf = 0 then assign buf
  else if ← ask then
    release buf
    assign buf

/-- `R_AllocStringBuffer`, and a use of what it has allocated. -/
def write (buf : ν) : Code (Locals ν ρ) Unit := do
  allocStringBuffer buf
  touch buf

theorem allocStringBuffer_triple {buf : ν}
    (h : ∀ s p, pre s → p ≠ 0 → post (some ()) (setPtr buf p s)) :
    Triple pre (allocStringBuffer buf) post := by
  refine .get_bind fun t ht => .ite (fun hnull => ?_) fun hbuf => .ask_bind fun moved =>
    .ite (fun _ => ?_) fun _ => .pure ?_
  · refine .assign (by rintro s rfl; exact hnull) ?_
    rintro s p rfl hp
    exact h s p ht hp
  · refine .bind (fun _ s => s = setPtr buf 0 t) (.release (by rintro s rfl; rfl)) fun _ => ?_
    refine .assign (by rintro s rfl; simp [setPtr]) ?_
    rintro s p rfl hp
    have hmoved : setPtr buf p (setPtr buf 0 t) = setPtr buf p t := by
      simp [setPtr]
    rw [hmoved]
    exact h t p ht hp
  · rintro s rfl
    have hsame : setPtr buf (s.ptr buf) s = s := by simp [setPtr]
    exact hsame ▸ h s _ ht hbuf

theorem write_triple {buf : ν} (h : ∀ s p, pre s → p ≠ 0 → post (some ()) (setPtr buf p s)) :
    Triple pre (write buf) post := by
  refine .bind (fun _ s => s.ptr buf ≠ 0 ∧ post (some ()) s) ?_ fun _ => .touch (fun s hs => hs.1)
    fun s hs => hs.2
  exact allocStringBuffer_triple fun s p hs hp => ⟨by simpa [setPtr] using hp, h s p hs hp⟩

end Buffers

/-! ### `deparse` -/

namespace Deparse

/-- Most of what `deparse2buff` does ends in `print2buff`; something else may raise an error. -/
inductive Step | print2buff | signals deriving DecidableEq

/-- The other variable is the static count of appends, an `unsigned int`. -/
abbrev DeparseCode := Code (Locals Unit ℕ) Unit

/-- The poll for interrupts, which frees the buffer when it unwinds. -/
def poll : DeparseCode := cleanedUp mayRaise (release ())

def print2buff : DeparseCode := do
  setRest fun appends => (appends + 1) % 2 ^ 32
  if (← get).rest % 1024 = 0 then
    poll
    write ()
  else write ()

def step : Step → DeparseCode
  | .print2buff => print2buff
  | .signals => mayRaise

/-- The cleanup is that of the context. -/
def deparse1WithCutoff (steps : List Step) : DeparseCode := do
  cleanedUp (forEach step steps) (release ())
  release ()

private theorem print2buff_triple : Triple (fun _ => True) print2buff fun _ _ => True := by
  have hwrite : Triple (fun _ => True) (write () : DeparseCode) fun _ _ => True :=
    write_triple fun _ _ _ _ => trivial
  refine .bind (fun _ _ => True) (.setRest fun _ _ => trivial) fun _ => .get_bind fun t _ => ?_
  refine .ite (fun _ => .bind (fun _ _ => True) ?_ fun _ => hwrite) fun _ =>
    hwrite.mono (fun _ _ => trivial) fun _ _ _ => trivial
  exact .cleanedUp (fun _ => True) (.mayRaise (fun _ _ => trivial) fun _ _ => trivial)
    (.release fun _ _ => trivial)

/-- A poll that unwinds leaves the context nothing to free. -/
theorem deparse1WithCutoff_freedOnce (steps : List Step) (appends : ℕ) (answers : List Bool) :
    FreedOnce ((deparse1WithCutoff steps).trace ⟨fun _ => 0, appends⟩ answers).1 := by
  refine (@Triple.freedOnce_iff _ _ _ _ _ (fun _ => True) ?_ (fun _ => rfl) answers).mpr trivial
  refine .bind (fun _ _ => True) (.cleanedUp (fun _ => True) ?_ ?_) fun _ => .release fun s _ => ?_
  · refine .forEach (fun _ => True) (fun x _ => ?_) (fun _ _ => trivial) fun _ _ => trivial
    cases x with
    | print2buff => exact print2buff_triple.mono (fun _ h => h) fun r _ _ => by cases r <;> trivial
    | signals => exact .mayRaise (fun _ _ => trivial) fun _ _ => trivial
  · exact .release fun s _ => iff_of_true (fun x => by simp [setPtr]) trivial
  · exact iff_of_true (fun x => by simp [setPtr]) trivial

end Deparse

/-! ### `load` -/

namespace Load

/-- A reader writes into the buffer, may free it itself, and may raise an error. -/
inductive Step | write | free | signals deriving DecidableEq

abbrev LoadCode := Code (Locals Unit Unit) Unit

def step : Step → LoadCode
  | .write => write ()
  | .free => release ()
  | .signals => raise

/-- `R_LoadFromFile`, given the reader that the magic number picks, if it is one. -/
def loadFromFile (reader : Option (List Step)) : LoadCode := do
  cleanedUp
    (match reader with
      | some steps => forEach step steps
      | none => raise)
    (release ())
  release ()

/-- It used to free the buffer before it rejected a magic number. -/
def oldLoadFromFile : Option (List Step) → LoadCode
  | some steps => do
      forEach step steps
      release ()
  | none => do
      release ()
      raise

/-- Whether the buffer is there when an error is raised. -/
def lost (allocated : Bool) : List Step → Bool
  | [] => false
  | .write :: steps => lost true steps
  | .free :: steps => lost false steps
  | .signals :: _ => allocated

theorem lost_of_notMem {steps : List Step} (allocated : Bool) (h : .signals ∉ steps) :
    lost allocated steps = false := by
  induction steps generalizing allocated with
  | nil => rfl
  | cons x steps ih =>
    obtain ⟨hx, hsteps⟩ := List.ne_and_not_mem_of_not_mem_cons h
    cases x with
    | write | free => exact ih _ hsteps
    | signals => exact absurd rfl hx

private theorem forEach_triple (steps : List Step) (allocated : Bool) :
    Triple (fun s => s.ptr () = 0 ↔ allocated = false) (forEach step steps) fun r s =>
      (r = none ↔ .signals ∈ steps) ∧ (r = none → (s.ptr () = 0 ↔ lost allocated steps = false)) := by
  induction steps generalizing allocated with
  | nil => exact .pure fun s _ => by simp
  | cons x steps ih =>
    cases x with
    | write =>
      refine .bind (fun _ s => s.ptr () = 0 ↔ true = false) (write_triple fun s p _ hp => ?_)
        fun _ => (ih true).mono (fun s hs => hs) fun r s hs => by simpa [lost] using hs
      simpa [setPtr] using hp
    | free =>
      refine .bind (fun _ s => s.ptr () = 0 ↔ false = false) (.release fun s _ => ?_)
        fun _ => (ih false).mono (fun s hs => hs) fun r s hs => by simpa [lost] using hs
      simp [setPtr]
    | signals =>
      exact .bind (fun _ _ => False) (.raise fun s hs => by simpa [lost] using hs)
        fun _ => .exfalso

/-- The cleanup frees what a reader leaves. Without it the buffer was lost when a reader raised
an error with the buffer there. -/
theorem loadFromFile_freedOnce_iff (reader : Option (List Step)) (answers : List Bool) :
    FreedOnce ((loadFromFile reader).trace ⟨fun _ => 0, ()⟩ answers).1 ∧
    (FreedOnce ((oldLoadFromFile reader).trace ⟨fun _ => 0, ()⟩ answers).1 ↔
      ∀ steps ∈ reader, lost false steps = false) := by
  have hsteps : ∀ steps, Triple (fun s => s = ⟨fun _ => 0, ()⟩) (forEach step steps) fun r s =>
      (r = none ↔ .signals ∈ steps) ∧ (r = none → (s.ptr () = 0 ↔ lost false steps = false)) :=
    fun steps => (forEach_triple steps false).mono (by rintro s rfl; simp) fun r s hs => hs
  constructor
  · refine (@Triple.freedOnce_iff _ _ _ _ _ (fun _ => True) ?_ (fun _ => rfl) answers).mpr trivial
    refine .bind (fun _ _ => True) (.cleanedUp (fun _ => True) ?_ ?_) fun _ => .release fun s _ => ?_
    · cases reader with
      | none => exact .raise fun _ _ => trivial
      | some steps => exact (hsteps steps).mono (fun s hs => hs) fun r _ _ => by cases r <;> trivial
    · exact .release fun s _ => iff_of_true (fun x => by simp [setPtr]) trivial
    · exact iff_of_true (fun x => by simp [setPtr]) trivial
  · refine @Triple.freedOnce_iff _ _ _ _ _ (fun _ => _) ?_ (fun _ => rfl) answers
    cases reader with
    | none =>
      refine .bind (fun _ s => s.ptr () = 0) (.release fun s _ => by simp [setPtr]) fun _ =>
        .raise fun s hs => iff_of_true (fun _ => hs) (by simp)
    | some steps =>
      refine .bind (fun _ _ => .signals ∉ steps) ((hsteps steps).mono (fun s hs => hs) ?_) fun _ =>
        .release fun s hs => iff_of_true (fun x => by simp [setPtr]) ?_
      · rintro (_ | _) s ⟨hraised, hs⟩
        · exact ⟨fun hall => by simpa using (hs rfl).mp (hall ()), fun h _ =>
            (hs rfl).mpr (h steps rfl)⟩
        · simpa using hraised
      · simpa using lost_of_notMem false hs

end Load

/-! ### `scan` -/

namespace Scan

inductive Var | quoteset | frame | strBuf deriving DecidableEq

inductive Step | write | signals deriving DecidableEq

/-- How `scanVector` ends: with nothing read, with all that was asked for, or with a copy of
the right length. An allocation may raise an error, for nothing read after the buffer is freed. -/
inductive Exit
  | empty (raises : Bool)
  | full
  | copied (raises : Bool)
  deriving DecidableEq

/-- The other variable is whether `d->sbuf` points into the frame. -/
abbrev ScanCode := Code (Locals Var Bool) Unit

def step : Step → ScanCode
  | .write => write .strBuf
  | .signals => raise

def fails (raises : Bool) : ScanCode := if raises then raise else pure ()

/-- `scan_cleanup`, and the jump that leaves the frame. -/
def scanCleanup : ScanCode := do
  release .quoteset
  if (← get).rest then
    touch .frame
    release .strBuf
    setRest fun _ => false
    release .frame
  else release .frame

/-- What is done in the context of `scan_cleanup`: the quote set is made, of which there is one
at a time, a reader is called, or something else raises an error. -/
inductive Part
  | quotes
  | vector (steps : List Step) (exit : Exit)
  | frame (steps : List Step)
  | signals
  deriving DecidableEq

section
-- before, there was no pointer: it is as if it had always been NULL
variable (patched : Bool)

/-- What the readers do with the buffer. An error may be raised before and after it is freed. -/
def readInto (steps : List Step) (before after : Bool) : ScanCode := do
  assign .frame
  allocStringBuffer .strBuf
  setRest fun _ => patched
  forEach step steps
  fails before
  release .strBuf
  setRest fun _ => false
  fails after
  release .frame

def scanVector (steps : List Step) : Exit → ScanCode
  | .empty raises => readInto patched steps false raises
  | .full => readInto patched steps false false
  | .copied raises => readInto patched steps raises false

def scanFrame (steps : List Step) : ScanCode := readInto patched steps false false

def part : Part → ScanCode
  | .quotes => do
      release .quoteset
      assign .quoteset
  | .vector steps exit => scanVector patched steps exit
  | .frame steps => scanFrame patched steps
  | .signals => raise

/-- What its owner does is given by its parts. -/
def underScanCleanup (parts : List Part) : ScanCode :=
  cleanedUp (forEach (part patched) parts) scanCleanup

end

/-- Nothing is there when the context opens. -/
def start : Locals Var Bool := ⟨fun _ => 0, false⟩

/-- An error is raised while the buffer is there. -/
def Part.Interrupted : Part → Prop
  | .vector steps exit => .signals ∈ steps ∨ exit = .copied true
  | .frame steps => .signals ∈ steps
  | .quotes | .signals => False

def Part.Raises : Part → Prop
  | .vector steps exit => .signals ∈ steps ∨ exit = .copied true ∨ exit = .empty true
  | .frame steps => .signals ∈ steps
  | .quotes => False
  | .signals => True

/-- Whether that is so of the first part that raises. -/
def Interrupted : List Part → Prop
  | [] => False
  | x :: xs => x.Interrupted ∨ ¬ x.Raises ∧ Interrupted xs

def Raises (parts : List Part) : Prop := ∃ x ∈ parts, x.Raises

/-- The frame of a reader is there, and the buffer in it. -/
def Reading (s : Locals Var Bool) : Prop := s.ptr .frame ≠ 0 ∧ s.ptr .strBuf ≠ 0

/-- There is no reader, and a quote set if `q` holds. -/
structure Outside (q : Prop) (s : Locals Var Bool) : Prop where
  frame : s.ptr .frame = 0
  strBuf : s.ptr .strBuf = 0
  sbuf : s.rest = false
  quoteset : s.ptr .quoteset ≠ 0 ↔ q

/-- When an error unwinds, there is a buffer in the frame if a reader was interrupted. -/
def Unwinding (patched : Bool) (interrupted : Prop) (s : Locals Var Bool) : Prop :=
  interrupted ∧ Reading s ∧ s.rest = patched ∨ ¬ interrupted ∧ s.ptr .strBuf = 0 ∧ s.rest = false

variable {patched : Bool} {q : Prop}

private theorem fails_triple {pre : Locals Var Bool → Prop} {post : Option Unit → Locals Var Bool → Prop}
    {raises : Bool} (hnone : raises = true → ∀ s, pre s → post none s)
    (hsome : raises = false → ∀ s, pre s → post (some ()) s) : Triple pre (fails raises) post :=
  .ite (fun h => .raise (hnone h)) fun h => .pure (hsome (by simpa using h))

private theorem forEach_triple (steps : List Step) (b : Bool) :
    Triple (fun s => (Reading s ∧ s.rest = b) ∧ (s.ptr .quoteset ≠ 0 ↔ q)) (forEach step steps)
      fun r s => ((Reading s ∧ s.rest = b) ∧ (s.ptr .quoteset ≠ 0 ↔ q)) ∧
        (r = none ↔ .signals ∈ steps) := by
  induction steps with
  | nil => exact .pure fun s hs => ⟨hs, by simp⟩
  | cons x steps ih =>
    cases x with
    | write =>
      refine .bind (fun _ s => (Reading s ∧ s.rest = b) ∧ (s.ptr .quoteset ≠ 0 ↔ q))
        (write_triple fun s p hs hp => ?_)
        fun _ => ih.mono (fun s hs => hs) fun r s hs => by simpa using hs
      simpa [setPtr, Reading, hp] using ⟨⟨hs.1.1.1, hs.1.2⟩, hs.2⟩
    | signals =>
      exact .bind (fun _ _ => False) (.raise fun s hs => ⟨hs, by simp⟩) fun _ => .exfalso

private theorem readInto_triple (steps : List Step) (before after : Bool) :
    Triple (Outside q) (readInto patched steps before after) fun r s => match r with
      | none => (.signals ∈ steps ∨ before = true ∨ after = true) ∧
          Unwinding patched (.signals ∈ steps ∨ before = true) s
      | some () => ¬ (.signals ∈ steps ∨ before = true ∨ after = true) ∧ Outside q s := by
  refine .bind (fun _ s => (s.ptr .frame ≠ 0 ∧ s.rest = false) ∧ (s.ptr .quoteset ≠ 0 ↔ q))
    (.assign (fun s hs => hs.frame) fun s p hs hp => ?_) fun _ => ?_
  · simpa [setPtr, hp, hs.sbuf] using hs.quoteset
  refine .bind (fun _ s => Reading s ∧ (s.ptr .quoteset ≠ 0 ↔ q))
    (allocStringBuffer_triple fun s p hs hp => ?_) fun _ => ?_
  · simpa [setPtr, Reading, hp] using ⟨hs.1.1, hs.2⟩
  refine .bind (fun _ s => (Reading s ∧ s.rest = patched) ∧ (s.ptr .quoteset ≠ 0 ↔ q))
    (.setRest fun s hs => ⟨⟨hs.1, rfl⟩, hs.2⟩) fun _ => ?_
  refine .bind (fun _ s => .signals ∉ steps ∧ (Reading s ∧ s.rest = patched) ∧
    (s.ptr .quoteset ≠ 0 ↔ q)) ?_ fun _ => ?_
  · refine (forEach_triple steps patched).mono (fun s hs => hs) fun r s hs => ?_
    cases r with
    | none =>
      have hsignals : Step.signals ∈ steps := hs.2.mp rfl
      exact ⟨.inl hsignals, .inl ⟨.inl hsignals, hs.1.1⟩⟩
    | some _ => exact ⟨by simpa using hs.2, hs.1⟩
  refine .bind (fun _ s => ¬ (.signals ∈ steps ∨ before = true) ∧ s.ptr .frame ≠ 0 ∧
    (s.ptr .quoteset ≠ 0 ↔ q)) (fails_triple (fun h s hs => ?_) fun h s hs => ?_) fun _ => ?_
  · exact ⟨.inr (.inl h), .inl ⟨.inr h, hs.2.1⟩⟩
  · exact ⟨by simp [hs.1, h], hs.2.1.1.1, hs.2.2⟩
  refine .bind (fun _ s => ¬ (.signals ∈ steps ∨ before = true) ∧ s.ptr .strBuf = 0 ∧
    (s.ptr .quoteset ≠ 0 ↔ q)) (.release fun s hs => ?_) fun _ => ?_
  · exact ⟨hs.1, by simp [setPtr], by simpa [setPtr] using hs.2.2⟩
  refine .bind (fun _ s => ¬ (.signals ∈ steps ∨ before = true) ∧
    (s.ptr .strBuf = 0 ∧ s.rest = false) ∧ (s.ptr .quoteset ≠ 0 ↔ q))
    (.setRest fun s hs => ⟨hs.1, ⟨hs.2.1, rfl⟩, hs.2.2⟩) fun _ => ?_
  refine .bind (fun _ s => (¬ (.signals ∈ steps ∨ before = true) ∧ after = false) ∧
    (s.ptr .strBuf = 0 ∧ s.rest = false) ∧ (s.ptr .quoteset ≠ 0 ↔ q))
    (fails_triple (fun h s hs => ?_) fun h s hs => ⟨⟨hs.1, h⟩, hs.2⟩) fun _ => .release fun s hs => ?_
  · exact ⟨.inr (.inr h), .inr ⟨hs.1, hs.2.1⟩⟩
  · have hraises : ¬ (.signals ∈ steps ∨ before = true ∨ after = true) := by
      rw [← or_assoc]
      simpa [hs.1.2] using hs.1.1
    exact ⟨hraises, by simp [setPtr], by simpa [setPtr] using hs.2.1.1, hs.2.1.2,
      by simpa [setPtr] using hs.2.2⟩

/-- After the quotes there is a quote set, and a part that returns leaves no reader. -/
private theorem part_triple (x : Part) :
    Triple (Outside q) (part patched x) fun r s => match r with
      | none => x.Raises ∧ Unwinding patched x.Interrupted s
      | some () => ¬ x.Raises ∧ Outside (q ∨ x = .quotes) s := by
  cases x with
  | quotes =>
    refine .bind (fun _ => Outside False) (.release fun s hs => ?_) fun _ =>
      .assign (fun s hs => by simpa using hs.quoteset) fun s p hs hp => ⟨id, ?_⟩
    · exact ⟨by simpa [setPtr] using hs.frame, by simpa [setPtr] using hs.strBuf, hs.sbuf,
        by simp [setPtr]⟩
    · exact ⟨by simpa [setPtr] using hs.frame, by simpa [setPtr] using hs.strBuf, hs.sbuf,
        by simp [setPtr, hp]⟩
  | vector steps exit =>
    cases exit <;>
      exact (readInto_triple steps _ _).mono (fun s hs => hs) fun r s hs => by
        cases r <;> simpa [Part.Raises, Part.Interrupted] using hs
  | frame steps =>
    refine (readInto_triple steps _ _).mono (fun s hs => hs) fun r s hs => ?_
    cases r <;> simpa [Part.Raises, Part.Interrupted] using hs
  | signals => exact .raise fun s hs => ⟨trivial, .inr ⟨id, hs.strBuf, hs.sbuf⟩⟩

private theorem parts_triple (parts : List Part) :
    Triple (Outside q) (forEach (part patched) parts) fun r s => match r with
      | none => Raises parts ∧ Unwinding patched (Interrupted parts) s
      | some () => (¬ Raises parts ∧ ¬ Interrupted parts) ∧ Outside (q ∨ .quotes ∈ parts) s := by
  induction parts generalizing q with
  | nil => exact .pure fun s hs => ⟨⟨by simp [Raises], id⟩, by simpa using hs⟩
  | cons x xs ih =>
    have hinterrupted : x.Interrupted → x.Raises := by
      cases x with
      | vector steps exit => exact fun h => h.imp_right .inl
      | frame steps => exact id
      | quotes | signals => exact False.elim
    refine .bind (fun _ s => ¬ x.Raises ∧ Outside (q ∨ x = .quotes) s) ?_ fun _ =>
      .of_forall ?_
    · refine (part_triple x).mono (fun s hs => hs) fun r s hs => ?_
      cases r with
      | none =>
        refine ⟨⟨x, List.mem_cons_self, hs.1⟩, ?_⟩
        simpa [Interrupted, hs.1] using hs.2
      | some _ => exact hs
    · rintro u ⟨hx, hu⟩
      have hskip : Interrupted (x :: xs) ↔ Interrupted xs := by
        rw [Interrupted]
        exact ⟨fun h => (h.resolve_left fun h => hx (hinterrupted h)).2, fun h => .inr ⟨hx, h⟩⟩
      refine ih.mono (by rintro s rfl; exact hu) fun r s hs => ?_
      cases r with
      | none =>
        obtain ⟨y, hy, hraises⟩ := hs.1
        exact ⟨⟨y, List.mem_cons_of_mem x hy, hraises⟩, by rw [hskip]; exact hs.2⟩
      | some _ =>
        refine ⟨⟨?_, fun h => hs.1.2 (hskip.mp h)⟩, ?_⟩
        · rintro ⟨y, hy, hraises⟩
          obtain rfl | hy := List.mem_cons.mp hy
          · exact hx hraises
          · exact hs.1.1 ⟨y, hy, hraises⟩
        · simpa [or_assoc, eq_comm] using hs.2

private theorem scanCleanup_triple (interrupted : Prop) :
    Triple (Unwinding patched interrupted) scanCleanup fun _ s =>
      s.ptr .quoteset = 0 ∧ ((∀ x, x ≠ .quoteset → s.ptr x = 0) ↔ patched = true ∨ ¬ interrupted) := by
  refine .bind (fun _ s => s.ptr .quoteset = 0 ∧ Unwinding patched interrupted s)
    (.release fun s hs => ?_) fun _ => ?_
  · simpa [setPtr, Unwinding, Reading] using hs
  refine .get_bind ?_
  rintro t ⟨hquotes, ht⟩
  refine .ite (fun hset => ?_) fun hset => ?_
  · obtain ⟨hinterrupted, hreading, hpatched⟩ := ht.resolve_right fun h => by simp [h.2.2] at hset
    refine .bind (fun _ s => s.ptr .quoteset = 0) (.touch ?_ ?_) fun _ => ?_
    · rintro s rfl
      exact hreading.1
    · rintro s rfl
      exact hquotes
    refine .bind (fun _ s => s.ptr .quoteset = 0 ∧ s.ptr .strBuf = 0) (.release fun s hs => ?_)
      fun _ => ?_
    · simpa [setPtr] using hs
    refine .bind (fun _ s => s.ptr .quoteset = 0 ∧ s.ptr .strBuf = 0) (.setRest fun s hs => hs)
      fun _ => .release fun s hs => ⟨by simp [setPtr, hs], iff_of_true (fun x hx => ?_)
        (.inl (hpatched.symm.trans hset))⟩
    cases x <;> simp_all [setPtr]
  · refine .release ?_
    rintro s rfl
    refine ⟨by simp [setPtr, hquotes], ?_⟩
    rcases ht with ⟨hinterrupted, hreading, hpatched⟩ | ⟨hinterrupted, hnull, -⟩
    · have hleft : ¬ ∀ x, x ≠ Var.quoteset → (setPtr Var.frame 0 s).ptr x = 0 := fun hall =>
        hreading.2 (by simpa [setPtr] using hall .strBuf (by decide))
      exact iff_of_false hleft (by simp [← hpatched, hset, hinterrupted])
    · refine iff_of_true (fun x hx => ?_) (.inr hinterrupted)
      cases x <;> simp_all [setPtr]

/-- What is left at the end, and whether that is the quote set. -/
private theorem underScanCleanup_triple (patched : Bool) (parts : List Part) :
    Triple (fun s => s = start) (underScanCleanup patched parts) fun _ s =>
      ((∀ x, x ≠ .quoteset → s.ptr x = 0) ↔ patched = true ∨ ¬ Interrupted parts) ∧
        (s.ptr .quoteset = 0 ↔ Raises parts ∨ .quotes ∉ parts) := by
  refine .cleanedUp (fun s => Raises parts ∧ Unwinding patched (Interrupted parts) s) ?_ ?_
  · have hparts := @parts_triple patched False parts
    refine hparts.mono ?_ fun r s hs => ?_
    · rintro s rfl
      exact ⟨rfl, rfl, rfl, by simp [start]⟩
    cases r with
    | none => exact hs
    | some _ =>
      obtain ⟨⟨hraises, hinterrupted⟩, hs⟩ := hs
      refine ⟨iff_of_true (fun x hx => ?_) (.inr hinterrupted), ?_⟩
      · cases x with
        | quoteset => exact absurd rfl hx
        | frame => exact hs.frame
        | strBuf => exact hs.strBuf
      · simpa [hraises] using not_congr hs.quoteset
  · refine .of_forall ?_
    rintro t ⟨hraises, ht⟩
    refine (scanCleanup_triple _).mono (by rintro s rfl; exact ht) fun r s hs => ?_
    exact ⟨hs.2, iff_of_true hs.1 (.inl hraises)⟩

/-- The buffers are freed once, through a pointer into a frame that is still there, whatever raises
an error in the context; without the pointer one was lost when an error was raised with it there.
The quote set is freed with them when an error is raised, and is otherwise all that is left. -/
theorem underScanCleanup_freedOnce_iff (patched : Bool) (parts : List Part) (answers : List Bool) :
    (FreedBut (((underScanCleanup patched parts).final start answers).ptr .quoteset)
        ((underScanCleanup patched parts).trace start answers).1 ↔
      patched = true ∨ ¬ Interrupted parts) ∧
    (((underScanCleanup patched parts).final start answers).ptr .quoteset = 0 ↔
      Raises parts ∨ .quotes ∉ parts) ∧
    (FreedOnce ((underScanCleanup patched parts).trace start answers).1 ↔
      (patched = true ∨ ¬ Interrupted parts) ∧ (Raises parts ∨ .quotes ∉ parts)) := by
  have hend := underScanCleanup_triple patched parts
  refine ⟨?_, ?_, ?_⟩
  · refine @Triple.freedBut_iff _ _ _ _ _ (fun _ => _) Var.quoteset ?_ (fun _ => rfl) answers
    exact hend.mono (fun s hs => hs) fun r s hs => hs.1
  · obtain ⟨names, -, -, -, hleft⟩ := hend.run (fun _ => rfl) answers
    exact hleft.2
  · refine @Triple.freedOnce_iff _ _ _ _ _ (fun _ => _) ?_ (fun _ => rfl) answers
    refine hend.mono (fun s hs => hs) fun r s hs => ?_
    rw [← hs.1, ← hs.2]
    refine ⟨fun hall => ⟨fun x _ => hall x, hall _⟩, fun ⟨hrest, hquotes⟩ x => ?_⟩
    by_cases hx : x = .quoteset
    · rw [hx, hquotes]
    · exact hrest x hx

end Scan
end ROssFuzz.StringBuffers
