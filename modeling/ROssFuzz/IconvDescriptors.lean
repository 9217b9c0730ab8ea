import ROssFuzz.OwningVariables

/-!
# The descriptors of `iconv`

`do_iconv` opens a descriptor for strings marked UTF-8, one for strings marked latin1 and one
for all others, each when the first element needs it, and converts into a string buffer. An
element may raise an error, and then a context closes what is open; there was none before.

An allocation with `malloc` or `realloc` does not fail.
-/

namespace ROssFuzz.IconvDescriptors
open OwnedCode OwnedCode.Code Resources

/-- `iconv_cleanup_t`, and before it four locals. -/
inductive Var | latin1Obj | utf8Obj | argObj | cbuff deriving DecidableEq

structure Options where
  to_ : String
  /-- NULL for no substitution -/
  sub : Option String

abbrev IconvCode := Code (Locals Var Options) Unit

/-- What the conversion of an element goes through: a call of `Riconv`, a larger buffer, or
something that may raise, such as `mkCharLenCE` of the result. -/
inductive ConvStep | riconv | grow | signals deriving DecidableEq

structure Element where
  isUtf8 : Bool
  isLatin1 : Bool
  steps : List ConvStep

section
variable (opens : String → String → Bool)

/-- `x = Riconv_open(to, from)`. -/
def riconvOpen (x : Var) (from_ : String) : IconvCode := do
  if opens (← get).rest.to_ from_ then assign x

/-- `//TRANSLIT` is given up where it is not supported. -/
def retryAscii (x : Var) (from_ fallback : String) : IconvCode := do
  if (← get).rest.to_ = "ASCII//TRANSLIT" then
    setRest fun rest => { rest with to_ := "ASCII" }
    riconvOpen opens x from_
    setRest fun rest => { rest with sub := rest.sub <|> some fallback }

/-- A descriptor that is not open yet. -/
def openDescriptor (x : Var) (from_ fallback : String) : IconvCode := do
  if (← get).ptr x = 0 then
    riconvOpen opens x from_
    if (← get).ptr x = 0 then
      retryAscii opens x from_ fallback
      if (← get).ptr x = 0 then raise

def convStep (obj : Var) : ConvStep → IconvCode
  | .riconv => do
      touch obj
      touch .cbuff
  | .grow => do
      release .cbuff
      assign .cbuff
  | .signals => mayRaise

/-- Which descriptor an element needs, and how it is opened. -/
def descriptor (isRawlist : Bool) (from_ : String) (element : Element) : Var × String × String :=
  if !isRawlist && element.isUtf8 && from_ == "" then (.utf8Obj, "UTF-8", "c99")
  else if !isRawlist && element.isLatin1 && from_ == "" then (.latin1Obj, "latin1", "?")
  else (.argObj, from_, "?")

def convertElement (isRawlist : Bool) (from_ : String) (element : Element) : IconvCode := do
  let (obj, fromcode, fallback) := descriptor isRawlist from_ element
  openDescriptor opens obj fromcode fallback
  forEach (convStep obj) element.steps

def iconvCleanup : IconvCode := do
  release .latin1Obj
  release .utf8Obj
  release .argObj
  release .cbuff

/-- From `begincontext` on. -/
def doIconv (isRawlist : Bool) (from_ : String) (x : List Element) : IconvCode := do
  cleanedUp
    (do
      assign .cbuff
      forEach (convertElement opens isRawlist from_) x)
    iconvCleanup
  iconvCleanup

/-- The code before, from where the context now begins. -/
def oldDoIconv (isRawlist : Bool) (from_ : String) (x : List Element) : IconvCode := do
  assign .cbuff
  forEach (convertElement opens isRawlist from_) x
  iconvCleanup

/-- The locals at the beginning. -/
def start (to_ : String) (sub : Option String) : Locals Var Options := ⟨fun _ => 0, to_, sub⟩

/-! ### The loop -/

variable {opens}

/-- A descriptor is open, and nothing else has changed, unless an error is raised. -/
private theorem riconvOpen_triple (x : Var) (from_ : String) (hx : x ≠ .cbuff) :
    Triple (fun s => s.ptr x = 0 ∧ s.ptr .cbuff ≠ 0) (riconvOpen opens x from_)
      fun r s => r = some () ∧ s.ptr .cbuff ≠ 0 := by
  refine .get_bind fun t ht => .ite (fun _ => ?_) fun _ => ?_
  · refine .assign (by rintro s rfl; exact ht.1) ?_
    rintro s p rfl -
    exact ⟨rfl, by simpa [setPtr, hx.symm] using ht.2⟩
  · exact .pure (by rintro s rfl; exact ⟨rfl, ht.2⟩)

private theorem retryAscii_triple (x : Var) (from_ fallback : String) (hx : x ≠ .cbuff) :
    Triple (fun s => s.ptr x = 0 ∧ s.ptr .cbuff ≠ 0) (retryAscii opens x from_ fallback)
      fun r s => r = some () ∧ s.ptr .cbuff ≠ 0 := by
  refine .get_bind fun t ht => .ite (fun _ => ?_) fun _ => ?_
  · refine .bind (fun _ s => s.ptr x = 0 ∧ s.ptr .cbuff ≠ 0) ?_ fun _ => ?_
    · exact .setRest (by rintro s rfl; exact ht)
    refine .bind (fun _ s => s.ptr .cbuff ≠ 0) ?_ fun _ => .setRest fun s hs => ⟨rfl, hs⟩
    refine (riconvOpen_triple x from_ hx).mono (fun s hs => hs) ?_
    rintro r s ⟨rfl, hs⟩
    exact hs
  · exact .pure (by rintro s rfl; exact ⟨rfl, ht.2⟩)

private theorem openDescriptor_triple (x : Var) (from_ fallback : String) (hx : x ≠ .cbuff) :
    Triple (fun s => s.ptr .cbuff ≠ 0) (openDescriptor opens x from_ fallback)
      fun r s => s.ptr .cbuff ≠ 0 ∧ (r = some () → s.ptr x ≠ 0) := by
  refine .get_bind fun t ht => .ite (fun hnull => ?_) fun hopen => ?_
  · refine .bind (fun _ s => s.ptr .cbuff ≠ 0) ?_ fun _ => ?_
    · refine (riconvOpen_triple x from_ hx).mono (by rintro s rfl; exact ⟨hnull, ht⟩) ?_
      rintro r s ⟨rfl, hs⟩
      exact hs
    refine .get_bind fun t ht => .ite (fun hnull => ?_) fun hopen => ?_
    · refine .bind (fun _ s => s.ptr .cbuff ≠ 0) ?_ fun _ => ?_
      · refine (retryAscii_triple x from_ fallback hx).mono (by rintro s rfl; exact ⟨hnull, ht⟩) ?_
        rintro r s ⟨rfl, hs⟩
        exact hs
      · refine .get_bind fun t ht => .ite (fun _ => ?_) fun hopen => ?_
        · exact .raise (by rintro s rfl; exact ⟨ht, nofun⟩)
        · exact .pure (by rintro s rfl; exact ⟨ht, fun _ => hopen⟩)
    · exact .pure (by rintro s rfl; exact ⟨ht, fun _ => hopen⟩)
  · exact .pure (by rintro s rfl; exact ⟨ht, fun _ => hopen⟩)

private theorem convStep_triple {obj : Var} (hobj : obj ≠ .cbuff) (step : ConvStep) :
    Triple (fun s => s.ptr .cbuff ≠ 0 ∧ s.ptr obj ≠ 0) (convStep obj step)
      fun r s => s.ptr .cbuff ≠ 0 ∧ (r = some () → s.ptr obj ≠ 0) := by
  cases step with
  | riconv =>
    refine .bind (fun _ s => s.ptr .cbuff ≠ 0 ∧ s.ptr obj ≠ 0) ?_ fun _ => ?_
    · exact .touch (fun s hs => hs.2) fun s hs => hs
    · exact .touch (fun s hs => hs.1) fun s hs => ⟨hs.1, fun _ => hs.2⟩
  | grow =>
    refine .bind (fun _ s => s.ptr .cbuff = 0 ∧ s.ptr obj ≠ 0) ?_ fun _ => ?_
    · exact .release fun s hs => by simpa [setPtr, hobj] using hs.2
    · exact .assign (fun s hs => hs.1) fun s p hs hp => by simpa [setPtr, hobj, hp] using hs.2
  | signals => exact .mayRaise (fun s hs => ⟨hs.1, by simp⟩) fun s hs => ⟨hs.1, fun _ => hs.2⟩

private theorem convertElement_triple (isRawlist : Bool) (from_ : String) (element : Element) :
    Triple (fun s => s.ptr .cbuff ≠ 0) (convertElement opens isRawlist from_ element)
      fun _ s => s.ptr .cbuff ≠ 0 := by
  have hobj : (descriptor isRawlist from_ element).1 ≠ .cbuff := by
    rw [descriptor]
    split
    · exact nofun
    · split <;> exact nofun
  refine .bind (fun _ s => s.ptr .cbuff ≠ 0 ∧ s.ptr (descriptor isRawlist from_ element).1 ≠ 0)
    ?_ fun _ => ?_
  · refine (openDescriptor_triple _ _ _ hobj).mono (fun s hs => hs) fun r s hs => ?_
    cases r with
    | none => exact hs.1
    | some _ => exact ⟨hs.1, hs.2 rfl⟩
  · refine .forEach _ (fun step _ => ?_) (fun s hs => hs) fun s hs => hs.1
    refine (convStep_triple hobj step).mono (fun s hs => hs) fun r s hs => ?_
    cases r with
    | none => exact hs.1
    | some _ => exact ⟨hs.1, hs.2 rfl⟩

private theorem convertAll_triple (isRawlist : Bool) (from_ : String) (x : List Element) :
    Triple (fun s => s.ptr .cbuff ≠ 0) (forEach (convertElement opens isRawlist from_) x)
      fun _ s => s.ptr .cbuff ≠ 0 := by
  refine .forEach _ (fun element _ => ?_) (fun s hs => hs) fun s hs => hs
  refine (convertElement_triple isRawlist from_ element).mono (fun s hs => hs) fun r s hs => ?_
  cases r <;> exact hs

private theorem iconvCleanup_triple :
    Triple (fun _ => True) iconvCleanup fun r s => r = some () ∧ ∀ x, s.ptr x = 0 := by
  refine .bind (fun _ s => s.ptr .latin1Obj = 0) (.release fun s _ => ?_) fun _ => ?_
  · simp [setPtr]
  refine .bind (fun _ s => s.ptr .latin1Obj = 0 ∧ s.ptr .utf8Obj = 0) (.release fun s hs => ?_)
    fun _ => ?_
  · simpa [setPtr] using hs
  refine .bind (fun _ s => s.ptr .latin1Obj = 0 ∧ s.ptr .utf8Obj = 0 ∧ s.ptr .argObj = 0)
    (.release fun s hs => ?_) fun _ => .release fun s hs => ⟨rfl, fun x => ?_⟩
  · simpa [setPtr] using hs
  · cases x <;> simp [setPtr, hs]

/-- The descriptors and the buffer are closed once whether or not an error unwinds out of the
loop, and before they were only when none did. -/
theorem doIconv_freedOnce (opens : String → String → Bool) (isRawlist : Bool)
    (from_ to_ : String) (sub : Option String) (x : List Element) (answers : List Bool) :
    FreedOnce ((doIconv opens isRawlist from_ x).trace (start to_ sub) answers).1 ∧
      (FreedOnce ((oldDoIconv opens isRawlist from_ x).trace (start to_ sub) answers).1 ↔
        ((oldDoIconv opens isRawlist from_ x).trace (start to_ sub) answers).2 = some ()) := by
  constructor
  · refine (@Triple.freedOnce_iff _ _ _ _ _ (fun _ => True) ?_ (fun _ => rfl) answers).mpr trivial
    refine .bind (fun _ _ => True) (.cleanedUp (fun _ => True) ?_ ?_) fun _ => ?_
    · refine .bind (fun _ s => s.ptr .cbuff ≠ 0) (.assign ?_ ?_) fun _ => ?_
      · rintro s rfl
        rfl
      · exact fun s p _ hp => by simpa [setPtr] using hp
      · refine (convertAll_triple isRawlist from_ x).mono (fun s hs => hs) fun r s _ => ?_
        cases r <;> trivial
    · exact iconvCleanup_triple.mono (fun s hs => hs) fun r s hs => by simpa using hs.2
    · exact iconvCleanup_triple.mono (fun s hs => hs) fun r s hs => by simpa using hs.2
  · refine @Triple.freedOnce_iff _ _ _ _ _ (· = some ()) ?_ (fun _ => rfl) answers
    refine .bind (fun _ s => s.ptr .cbuff ≠ 0) (.assign ?_ ?_) fun _ => ?_
    · rintro s rfl
      rfl
    · exact fun s p _ hp => by simpa [setPtr] using hp
    refine .bind (fun _ _ => True) ?_ fun _ => ?_
    · refine (convertAll_triple isRawlist from_ x).mono (fun s hs => hs) fun r s hs => ?_
      cases r with
      | none => exact iff_of_false (fun hall => hs (hall .cbuff)) (by simp)
      | some _ => trivial
    · exact iconvCleanup_triple.mono (fun s hs => hs) fun r s hs => iff_of_true hs.2 hs.1

end
end ROssFuzz.IconvDescriptors
