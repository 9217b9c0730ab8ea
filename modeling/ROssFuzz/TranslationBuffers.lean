import ROssFuzz.OwningVariables

/-!
# The buffers of a translation

`translateToNative`, `translateToUTF8` and `translateToWchar` translate into a string buffer
of their caller. A string that cannot be translated is escaped, and the caller may have it
signalled: with `mustWork` 1 as an error, with 2 as a warning, which `options(warn = 2)` makes an
error. The buffer is now released before either; it was not before a warning.

A conversion is given by how often it makes the buffer grow and by whether it fails, and R's
`install` by whether it raises. `malloc` and `realloc` do not fail.

The regex functions translate the texts that they match in a loop, with a compiled pattern that
a context releases when an error unwinds.
-/

namespace ROssFuzz.TranslationBuffers
open OwnedCode OwnedCode.Code Resources

/-- The buffers and the descriptor of a translation, and `regex_cleanup_info`. -/
inductive Var | cbuff | ebuff | obj | reg | tables | re | mdata | mcontext deriving DecidableEq

abbrev RCode := Code (Locals Var Unit)

inductive Kind | native | utf8 | wchar deriving DecidableEq

/-- A string that needs translation. -/
structure Translation where
  /-- there is no such conversion -/
  unsupported : Bool
  /-- `NT_FROM_NATIVE`, for which `translateToWchar` has a descriptor of its own -/
  fromNative : Bool
  /-- how often the buffer is too small -/
  grows : ℕ
  failed : Bool
  /-- the heap is full when the result is copied -/
  copyRaises : Bool
  /-- the heap is full when `reEnc` copies the escaped string -/
  reEncRaises : Bool

def Translation.ownDescriptor (t : Translation) : Kind → Bool
  | .native => false
  | .utf8 => true
  | .wchar => t.fromNative

section
variable (warnIsError : Bool) (kind : Kind)

/-- `warning`. -/
def warning : RCode Unit := if warnIsError then raise else pure ()

def grow : RCode Unit := do
  release .cbuff
  assign .cbuff

/-- A static descriptor is not closed. -/
def openDescriptor (t : Translation) : RCode Unit :=
  if t.ownDescriptor kind then assign .obj else pure ()

/-- What comes before the test of `failed`: the descriptor, the conversion and `Riconv_close`. -/
def convert (t : Translation) : RCode Unit := do
  if t.unsupported then raise
  else
    openDescriptor kind t
    assign .cbuff
    forEach (fun _ => grow) (List.replicate t.grows ())
    release .obj

/-- The message, which is escaped into a buffer of its own unless it is native. -/
def truncateForMessage : RCode Unit := do
  touch .cbuff
  if kind ≠ .native then
    assign .ebuff
    touch .ebuff
    release .ebuff

/-- `translateToNative`, `translateToUTF8` and `translateToWchar`. -/
def translate (t : Translation) (mustWork : ℕ) : RCode Bool := do
  convert kind t
  if mustWork ≠ 0 ∧ t.failed then
    truncateForMessage kind
    release .cbuff
    if mustWork = 2 then
      warning warnIsError
      pure true
    else raise
  else pure t.failed

/-- R's `install`, which reads the name and may raise an error: for a name of length zero, or when
there is no room for the symbol. -/
def install (raises : Bool) : RCode Unit := do
  touch .cbuff
  if raises then raise else pure ()

/-- From the test of the name's length to the release of the buffer. -/
def installName (tooLong installRaises : Bool) : RCode Unit := do
  touch .cbuff
  if tooLong then
    release .cbuff
    raise
  else
    install installRaises
    release .cbuff

def messageOf (failed : Bool) : RCode Unit :=
  if failed then truncateForMessage .native else pure ()

/-- For a name that needs translation. -/
def installTrChar (t : Translation) (tooLong installRaises : Bool) : RCode Unit := do
  let failed ← translate warnIsError .native t 0
  messageOf failed
  installName tooLong installRaises
  if failed then warning warnIsError else pure ()

/-! ### Before -/

def oldTranslate (t : Translation) (mustWork : ℕ) : RCode Bool := do
  convert kind t
  if mustWork ≠ 0 ∧ t.failed then
    touch .cbuff
    if kind ≠ .native ∧ t.reEncRaises then raise
    else if mustWork = 2 then
      warning warnIsError
      pure true
    else
      release .cbuff
      raise
  else pure false

def oldInstallTrChar (t : Translation) (tooLong installRaises : Bool) : RCode Unit := do
  let _ ← oldTranslate warnIsError .native t 2
  installName tooLong installRaises

/-! ### A translation -/

/-- None of the variables of a translation is in use. -/
structure Idle (ptr : Var → ℕ) : Prop where
  cbuff : ptr .cbuff = 0
  ebuff : ptr .ebuff = 0
  obj : ptr .obj = 0

/-- The buffer is all that has been added. -/
def Filled (ptr : Var → ℕ) (s : Locals Var Unit) : Prop :=
  ∃ p ≠ 0, s.ptr = Function.update ptr .cbuff p

variable {ptr : Var → ℕ} {warnIsError : Bool} {kind : Kind}

theorem Filled.cbuff {s : Locals Var Unit} (h : Filled ptr s) : s.ptr .cbuff ≠ 0 := by
  obtain ⟨p, hp, hs⟩ := h
  rw [hs, Function.update_self]
  exact hp

theorem Filled.released {s : Locals Var Unit} (h : Filled ptr s) (hidle : Idle ptr) :
    (setPtr .cbuff 0 s).ptr = ptr := by
  obtain ⟨p, -, hs⟩ := h
  rw [setPtr, hs, Function.update_idem, ← hidle.cbuff, Function.update_eq_self]

private theorem release_triple (hidle : Idle ptr) {post : Option Unit → Locals Var Unit → Prop}
    (h : ∀ s, s.ptr = ptr → post (some ()) s) : Triple (Filled ptr) (release .cbuff) post :=
  .release fun _ hs => h _ (hs.released hidle)

/-- The same, with a descriptor that may still be open. -/
private def Converting (ptr : Var → ℕ) (s : Locals Var Unit) : Prop :=
  ∃ q p, p ≠ 0 ∧ s.ptr = Function.update (Function.update ptr .obj q) .cbuff p

private theorem grow_triple : Triple (Converting ptr) grow fun r s => match r with
    | none => False
    | some () => Converting ptr s := by
  refine .bind (fun _ s => ∃ q, s.ptr = Function.update (Function.update ptr .obj q) .cbuff 0)
    ?_ fun _ => ?_
  · refine .release ?_
    rintro s ⟨q, p, -, hs⟩
    exact ⟨q, by rw [setPtr, hs, Function.update_idem]⟩
  · refine .assign ?_ ?_
    · rintro s ⟨q, hs⟩
      rw [hs, Function.update_self]
    · rintro s p ⟨q, hs⟩ hp
      exact ⟨q, p, hp, by rw [setPtr, hs, Function.update_idem]⟩

private theorem convert_triple (hidle : Idle ptr) (t : Translation) :
    Triple (fun s => s.ptr = ptr) (convert kind t) fun r s => match r with
      | none => s.ptr = ptr ∧ t.unsupported = true
      | some () => Filled ptr s ∧ t.unsupported = false := by
  refine .ite (fun hu => .raise fun s hs => ⟨hs, hu⟩) fun hu => ?_
  refine .bind (fun _ s => ∃ q, s.ptr = Function.update ptr .obj q) ?_ fun _ => ?_
  · refine .ite (fun _ => .assign ?_ ?_) fun _ => .pure ?_
    · rintro s rfl
      exact hidle.obj
    · rintro s p rfl -
      exact ⟨p, rfl⟩
    · rintro s rfl
      exact ⟨0, by rw [← hidle.obj, Function.update_eq_self]⟩
  refine .bind (fun _ => Converting ptr) (.assign ?_ ?_) fun _ => ?_
  · rintro s ⟨q, hs⟩
    rw [hs, Function.update_of_ne (by decide)]
    exact hidle.cbuff
  · rintro s p ⟨q, hs⟩ hp
    exact ⟨q, p, hp, by rw [setPtr, hs]⟩
  refine .bind (fun _ => Converting ptr) ?_ fun _ => .release ?_
  · refine .forEach (Converting ptr) (fun _ _ => ?_) (fun s hs => hs) fun s hs => hs
    refine grow_triple.mono (fun s hs => hs) fun r s hs => ?_
    cases r with
    | none => exact hs.elim
    | some _ => exact hs
  · rintro s ⟨q, p, hp, hs⟩
    refine ⟨⟨p, hp, ?_⟩, by simpa using hu⟩
    rw [setPtr, hs, Function.update_comm (by decide), Function.update_idem,
      Function.update_comm (by decide), Function.update_eq_self_iff.mpr]
    rw [Function.update_of_ne (by decide), hidle.obj]

private theorem truncateForMessage_triple (hidle : Idle ptr) (kind : Kind) :
    Triple (Filled ptr) (truncateForMessage kind) fun r s => r = some () ∧ Filled ptr s := by
  refine .bind (fun _ => Filled ptr) (.touch (fun s hs => hs.cbuff) fun s hs => hs) fun _ => ?_
  refine .ite (fun _ => ?_) fun _ => .pure fun s hs => ⟨rfl, hs⟩
  refine .bind (fun _ s => ∃ q p, q ≠ 0 ∧ p ≠ 0 ∧
    s.ptr = Function.update (Function.update ptr .cbuff p) .ebuff q) (.assign ?_ ?_) fun _ => ?_
  · rintro s ⟨p, -, hs⟩
    rw [hs, Function.update_of_ne (by decide)]
    exact hidle.ebuff
  · rintro s q ⟨p, hp, hs⟩ hq
    exact ⟨q, p, hq, hp, by rw [setPtr, hs]⟩
  refine .bind (fun _ s => ∃ q p, q ≠ 0 ∧ p ≠ 0 ∧
    s.ptr = Function.update (Function.update ptr .cbuff p) .ebuff q) (.touch ?_ fun s hs => hs)
    fun _ => .release ?_
  · rintro s ⟨q, p, hq, -, hs⟩
    rwa [hs, Function.update_self]
  · rintro s ⟨q, p, -, hp, hs⟩
    refine ⟨rfl, p, hp, ?_⟩
    rw [setPtr, hs, Function.update_idem, Function.update_eq_self_iff.mpr]
    rw [Function.update_of_ne (by decide), hidle.ebuff]

/-- The contract of the three functions: the buffer is there unless an error has been raised,
or the failure has been signalled. -/
theorem translate_triple (hidle : Idle ptr) (t : Translation) (mustWork : ℕ) :
    Triple (fun s => s.ptr = ptr) (translate warnIsError kind t mustWork) fun r s => match r with
      | none => s.ptr = ptr ∧ (t.unsupported = true ∨ t.failed = true ∧ mustWork ≠ 0 ∧
          (mustWork = 2 → warnIsError = true))
      | some failed => failed = t.failed ∧ t.unsupported = false ∧
          if mustWork ≠ 0 ∧ t.failed = true then s.ptr = ptr ∧ warnIsError = false
          else Filled ptr s := by
  refine .bind (fun _ s => Filled ptr s ∧ t.unsupported = false) ?_ fun _ => ?_
  · refine (convert_triple hidle t).mono (fun s hs => hs) fun r s hs => ?_
    cases r with
    | none => exact ⟨hs.1, .inl hs.2⟩
    | some _ => exact hs
  refine .ite (fun h => ?_) fun h => ?_
  · refine .bind (fun _ s => Filled ptr s ∧ t.unsupported = false) ?_ fun _ => ?_
    · refine .of_forall fun u hu => ?_
      refine (truncateForMessage_triple hidle kind).mono (by rintro s rfl; exact hu.1) ?_
      rintro r s ⟨rfl, hs⟩
      exact ⟨hs, hu.2⟩
    refine .bind (fun _ s => s.ptr = ptr ∧ t.unsupported = false) (.release fun s hs =>
      ⟨hs.1.released hidle, hs.2⟩) fun _ => ?_
    refine .ite (fun htwo => ?_) fun htwo => .raise fun s hs => ⟨hs.1, .inr ⟨h.2, h.1, ?_⟩⟩
    · refine .bind (fun _ s => (s.ptr = ptr ∧ t.unsupported = false) ∧ warnIsError = false) ?_
        fun _ => .pure fun s hs => ?_
      · refine .ite (fun hwarn => .raise fun s hs => ?_) fun hwarn => .pure fun s hs => ?_
        · exact ⟨hs.1, .inr ⟨h.2, h.1, fun _ => hwarn⟩⟩
        · exact ⟨hs, by simpa using hwarn⟩
      · exact ⟨h.2.symm, hs.1.2, by rw [if_pos h]; exact ⟨hs.1.1, hs.2⟩⟩
    · exact fun hmust => absurd hmust htwo
  · exact .pure fun s hs => ⟨rfl, hs.2, by rw [if_neg h]; exact hs.1⟩

/-! ### Its callers -/

/-- A result, none, an error, or an error past the buffer. -/
inductive Outcome | result | invalid | raised | lost deriving DecidableEq

def Translation.outcome (warnIsError : Bool) (t : Translation) : Outcome :=
  if t.unsupported then .raised
  else if t.failed then if warnIsError then .raised else .invalid
  else if t.copyRaises then .lost else .result

def Translation.oldOutcome (warnIsError : Bool) (kind : Kind) (t : Translation) : Outcome :=
  if t.unsupported then .raised
  else if t.failed then
    if kind ≠ .native ∧ t.reEncRaises = true ∨ warnIsError = true then .lost else .invalid
  else if t.copyRaises then .lost else .result

private theorem oldTranslate_triple (hidle : Idle ptr) (t : Translation) :
    Triple (fun s => s.ptr = ptr) (oldTranslate warnIsError kind t 2) fun r s => match r with
      | none => t.unsupported = true ∧ s.ptr = ptr ∨ t.unsupported = false ∧ t.failed = true ∧
          t.oldOutcome warnIsError kind = .lost ∧ Filled ptr s
      | some failed => failed = t.failed ∧ t.unsupported = false ∧ Filled ptr s ∧
          (t.failed = true → t.oldOutcome warnIsError kind = .invalid) := by
  refine .bind (fun _ s => Filled ptr s ∧ t.unsupported = false) ?_ fun _ => ?_
  · refine (convert_triple hidle t).mono (fun s hs => hs) fun r s hs => ?_
    cases r with
    | none => exact .inl hs.symm
    | some _ => exact hs
  refine .ite (fun h => ?_) fun h => .pure fun s hs => ?_
  · refine .bind (fun _ s => Filled ptr s ∧ t.unsupported = false)
      (.touch (fun s hs => hs.1.cbuff) fun s hs => hs) fun _ => ?_
    refine .ite (fun hreEnc => .raise fun s hs => .inr ⟨hs.2, h.2, ?_, hs.1⟩) fun hreEnc => ?_
    · rw [Translation.oldOutcome, if_neg (by simp [hs.2]), if_pos h.2, if_pos (.inl hreEnc)]
    refine .bind (fun _ s => (Filled ptr s ∧ t.unsupported = false) ∧ warnIsError = false) ?_
      fun _ => .pure fun s hs => ?_
    · refine .ite (fun hwarn => .raise fun s hs => .inr ⟨hs.2, h.2, ?_, hs.1⟩) fun hwarn =>
        .pure fun s hs => ⟨hs, by simpa using hwarn⟩
      rw [Translation.oldOutcome, if_neg (by simp [hs.2]), if_pos h.2, if_pos (.inr hwarn)]
    · refine ⟨h.2.symm, hs.1.2, hs.1.1, fun _ => ?_⟩
      rw [Translation.oldOutcome, if_neg (by simp [hs.1.2]), if_pos h.2, if_neg (by simp [hs.2, hreEnc])]
  · have hfailed : t.failed = false := by simpa using h
    exact ⟨hfailed.symm, hs.2, hs.1, fun hf => by simp [hf] at hfailed⟩

private theorem oldOutcome_native_eq_lost_iff {t : Translation} (hu : t.unsupported = false)
    (hf : t.failed = true) : t.oldOutcome warnIsError .native = .lost ↔ warnIsError = true := by
  cases warnIsError <;> simp [Translation.oldOutcome, hu, hf]

/-- The locals at the beginning. -/
def start : Locals Var Unit := ⟨fun _ => 0, ()⟩

theorem Idle.start : Idle start.ptr := ⟨rfl, rfl, rfl⟩

private theorem all_null {s : Locals Var Unit} (h : s.ptr = start.ptr) : ∀ x, s.ptr x = 0 :=
  fun x => congrFun h x

private theorem not_all_null {s : Locals Var Unit} (h : Filled ptr s) : ¬ ∀ x, s.ptr x = 0 :=
  fun hall => h.cbuff (hall .cbuff)

private theorem installName_triple (tooLong installRaises : Bool) :
    Triple (Filled start.ptr) (installName tooLong installRaises) fun r s => match r with
      | none => (∀ x, s.ptr x = 0) ↔ tooLong = true ∨ installRaises = false
      | some () => s.ptr = start.ptr ∧ installRaises = false := by
  have htouch : ∀ {post : Option Unit → Locals Var Unit → Prop} {next : RCode Unit},
      Triple (Filled start.ptr) next post →
      Triple (Filled start.ptr) (do touch .cbuff; next) post := fun hnext =>
    .bind (fun _ => Filled start.ptr) (.touch (fun s hs => hs.cbuff) fun s hs => hs) fun _ => hnext
  refine htouch (.ite (fun hlong => ?_) fun hlong => ?_)
  · refine .bind (fun _ s => s.ptr = start.ptr) (release_triple .start fun s hs => hs) fun _ => ?_
    exact .raise fun s hs => iff_of_true (all_null hs) (.inl hlong)
  refine .bind (fun _ s => Filled start.ptr s ∧ installRaises = false) (htouch ?_) fun _ => ?_
  · refine .ite (fun hraises => .raise fun s hs => ?_) fun hraises => .pure fun s hs => ?_
    · exact iff_of_false (not_all_null hs) (by simp [hlong, hraises])
    · exact ⟨hs, by simpa using hraises⟩
  · refine .of_forall fun u hu => ?_
    refine (release_triple .start ?_).mono (by rintro s rfl; exact hu.1) fun r s hs => hs
    exact fun s hs => ⟨hs, hu.2⟩

/-- The buffer of a name is lost where `install` raises, and otherwise freed once; before, it was
lost also where the failure was signalled as an error. -/
theorem installTrChar_freedOnce_iff (warnIsError : Bool) (t : Translation)
    (tooLong installRaises : Bool) (answers : List Bool) :
    (FreedOnce ((installTrChar warnIsError t tooLong installRaises).trace start answers).1 ↔
      t.unsupported = true ∨ tooLong = true ∨ installRaises = false) ∧
    (FreedOnce ((oldInstallTrChar warnIsError t tooLong installRaises).trace start answers).1 ↔
      t.unsupported = true ∨ (tooLong = true ∨ installRaises = false) ∧
        ¬ (t.failed = true ∧ warnIsError = true)) := by
  constructor
  · refine @Triple.freedOnce_iff _ _ _ _ _ (fun _ => _) ?_ (fun _ => rfl) answers
    refine .bind (fun _ s => Filled start.ptr s ∧ t.unsupported = false) ?_ fun failed =>
      .of_forall fun u ⟨hfilled, hu⟩ => ?_
    · refine (translate_triple .start t 0).mono (by rintro s rfl; rfl) fun r s hs => ?_
      cases r with
      | none =>
        obtain ⟨hptr, h | ⟨-, h, -⟩⟩ := hs
        · exact iff_of_true (all_null hptr) (.inl h)
        · exact absurd rfl h
      | some failed => exact ⟨by simpa using hs.2.2, hs.2.1⟩
    refine .bind (fun _ => Filled start.ptr) ?_ fun _ => ?_
    · refine .ite (fun _ => ?_) fun _ => .pure (by rintro s rfl; exact hfilled)
      refine (truncateForMessage_triple .start .native).mono (by rintro s rfl; exact hfilled) ?_
      rintro r s ⟨rfl, hs⟩
      exact hs
    refine .bind (fun _ s => s.ptr = start.ptr ∧ installRaises = false) ?_ fun _ => ?_
    · refine (installName_triple tooLong installRaises).mono (fun s hs => hs) fun r s hs => ?_
      cases r with
      | none => simpa [hu] using hs
      | some _ => exact hs
    · have hend : ∀ s : Locals Var Unit, s.ptr = start.ptr ∧ installRaises = false →
          ((∀ x, s.ptr x = 0) ↔ t.unsupported = true ∨ tooLong = true ∨ installRaises = false) :=
        fun s hs => iff_of_true (all_null hs.1) (.inr (.inr hs.2))
      exact .ite (fun _ => .ite (fun _ => .raise hend) fun _ => .pure hend) fun _ => .pure hend
  · refine @Triple.freedOnce_iff _ _ _ _ _ (fun _ => _) ?_ (fun _ => rfl) answers
    refine .bind (fun _ s => Filled start.ptr s ∧ t.unsupported = false ∧
      ¬ (t.failed = true ∧ warnIsError = true)) ?_ fun failed => ?_
    · refine (oldTranslate_triple .start t).mono (by rintro s rfl; rfl) fun r s hs => ?_
      cases r with
      | none =>
        rcases hs with ⟨hu, hs⟩ | ⟨hu, hf, hlost, hs⟩
        · exact iff_of_true (all_null hs) (.inl hu)
        · have hwarn := (oldOutcome_native_eq_lost_iff hu hf).mp hlost
          exact iff_of_false (not_all_null hs) (by simp [hu, hf, hwarn])
      | some failed =>
        refine ⟨hs.2.2.1, hs.2.1, fun ⟨hf, hwarn⟩ => ?_⟩
        have hlost := (oldOutcome_native_eq_lost_iff hs.2.1 hf).mpr hwarn
        rw [hs.2.2.2 hf] at hlost
        exact absurd hlost (by decide)
    refine .of_forall fun u ⟨hfilled, hu, hkept⟩ => ?_
    refine (installName_triple tooLong installRaises).mono (by rintro s rfl; exact hfilled)
      fun r s hs => ?_
    cases r with
    | none => simpa [hu, hkept] using hs
    | some _ => exact iff_of_true (all_null hs.1) (.inr ⟨.inr hs.2, hkept⟩)

end
end ROssFuzz.TranslationBuffers
