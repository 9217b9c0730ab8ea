import ROssFuzz.TransitionRuns
import ROssFuzz.CheckedOperations

/-!
# The repeated language objects of a bytecode stream

`ReadBCLang` is driven by the stream: each call is made with a type read from it, may read
an index and another type behind that, and reads the parts of the cell it allocates by
further calls before it returns the cell. The calls whose cells are still being read are the
open frames, innermost first. The reader as patched keeps its slots in `BCReps` and grows
them; the reader it replaces has a vector of the declared length and checks nothing.

An error ends the reading, so every run here is one up to its error, or to a failed
allocation. The `int`s of the source are integers; the one that is added to is checked.
-/

namespace ROssFuzz.BytecodeReps
open TransitionRuns CheckedOperations

/-- The types that `ReadBCLang` tells apart. -/
inductive SexpType
  | langsxp
  | listsxp
  | attrlangsxp
  | attrlistsxp
  | other (code : ℤ)
  deriving DecidableEq

/-- What a call returns, and what a slot holds. -/
inductive Sexp
  | nilValue
  | cell (address : ℕ)
  /-- what `ReadItem` read -/
  | item (code : ℤ)
  deriving DecidableEq

/-- A cell of `allocSExp`, with what has been read into it, in order. -/
structure Cell where
  type : SexpType
  hasattr : Bool
  parts : List Sexp
  deriving DecidableEq

structure BCReps where
  slots : List Sexp
  ndefs : ℤ

structure State where
  reps : BCReps
  heap : List Cell
  frames : List ℕ

/-- The type a call is made with, and what it reads behind it. -/
inductive Call
  | bcrepref (pos : ℤ)
  | bcrepdef (pos : ℤ) (type : SexpType)
  | plain (type : SexpType)

/-- What happens next: the innermost frame, or `ReadBCConsts`, makes a call, or the frame has
read its last part and returns. -/
inductive Action
  | call (c : Call)
  | ret

inductive Event
  | defined (pos : ℤ) (cell : ℕ)
  | opened (cell : ℕ)
  | referred (pos : ℤ) (x : Sexp)
  | item (code : ℤ)
  | closed (cell : ℕ)
  deriving DecidableEq

def bcRepsInit : ℤ := 1024

/-- `allocVector(VECSXP, n)`. -/
def allocVector (n : ℕ) : List Sexp := List.replicate n .nilValue

def growBCReps (reps : BCReps) : Except Stop BCReps := do
  let n := reps.slots.length
  let newn := if n < 16 then 16 else 2 * n
  let s ← transfer reps.slots ((List.range n).map fun i => (i, i)) (allocVector newn)
  return { reps with slots := s }

/-- `reps->ndefs++` -/
def BCReps.countDefinition (reps : BCReps) : Except Stop BCReps := do
  let ndefs ← asInt (reps.ndefs + 1)
  return { reps with ndefs := ndefs }

/-- The block behind `if (pos >= 0)`. -/
def BCReps.define (reps : BCReps) (pos : ℤ) (ans : Sexp) : Except Stop BCReps := do
  let reps ← if pos ≥ reps.slots.length then growBCReps reps else pure reps
  let slots ← storeAt reps.slots pos ans
  let reps := { reps with slots := slots }
  if pos = reps.ndefs then reps.countDefinition else return reps

/-- `switch (type)`: the type without its attribute variant, and `hasattr`. -/
def SexpType.plainType : SexpType → SexpType × Bool
  | .attrlangsxp => (.langsxp, true)
  | .attrlistsxp => (.listsxp, true)
  | type => (type, false)

/-- The cases of `ReadBCLang` that allocate a cell. -/
def SexpType.isCell : SexpType → Bool
  | .other _ => false
  | _ => true

/-- What a call returns is the next part of the cell that the calling frame reads. -/
def State.give (s : State) (x : Sexp) : State :=
  match s.frames with
  | [] => s
  | a :: _ => { s with heap := s.heap.modify a fun c => { c with parts := c.parts ++ [x] } }

/-- `PROTECT(ans = allocSExp(type))`, and the frame goes on to read its parts. -/
def State.allocSExp (s : State) (reps : BCReps) (type : SexpType × Bool) : State where
  reps := reps
  heap := s.heap ++ [⟨type.1, type.2, []⟩]
  frames := s.heap.length :: s.frames

/-- The innermost frame returns its cell. -/
def State.ret (s : State) : Except Stop (Event × State) :=
  match s.frames with
  -- no stream makes a call return that was not made
  | [] => .error .error
  | a :: rest => .ok (.closed a, { s with frames := rest }.give (.cell a))

/-- `ReadBCLang` from the second `switch` on. -/
def readCell (s : State) (pos : ℤ) (type : SexpType) : Except Stop (Event × State) := do
  let t := type.plainType
  if t.1 ≠ .langsxp ∧ t.1 ≠ .listsxp then throw .error
  let ans := s.heap.length
  let reps ← if pos ≥ 0 then s.reps.define pos (.cell ans) else pure s.reps
  return (if pos ≥ 0 then .defined pos ans else .opened ans, s.allocSExp reps t)

def readBCLang (s : State) : Call → Except Stop (Event × State)
  | .bcrepref pos => do
      if pos < 0 ∨ pos ≥ s.reps.ndefs then throw .error
      let x ← loadAt s.reps.slots pos
      return (.referred pos x, s.give x)
  | .bcrepdef pos type => do
      if pos < 0 ∨ pos > s.reps.ndefs then throw .error
      readCell s pos type
  | .plain (.other code) => return (.item code, s.give (.item code))
  | .plain type => readCell s (-1) type

/-- `ReadBC` up to its call of `ReadBC1`. -/
def readBC (n : ℤ) : Except Stop State := do
  if n < 0 then throw .error
  return ⟨⟨allocVector (if n < bcRepsInit then n else bcRepsInit).toNat, 0⟩, [], []⟩

def step (s : State) : Action → Except Stop (Event × State)
  | .call c => readBCLang s c
  | .ret => s.ret

/-- The reader of one bytecode stream. -/
def system : System State Action Event where
  init s := ∃ n, readBC n = .ok s
  step s a := (step s a).toOption

/-! ### The replaced reader -/

/-- Its slots are the vector of the declared length; it has no count of definitions. -/
def oldReadCell (s : State) (pos : ℤ) (type : SexpType) : Except Stop (Event × State) := do
  let t := type.plainType
  let ans := s.heap.length
  let slots ← if pos ≥ 0 then storeAt s.reps.slots pos (.cell ans) else pure s.reps.slots
  return (if pos ≥ 0 then .defined pos ans else .opened ans,
    s.allocSExp { s.reps with slots := slots } t)

def oldReadBCLang (s : State) : Call → Except Stop (Event × State)
  | .bcrepref pos => do
      let x ← loadAt s.reps.slots pos
      return (.referred pos x, s.give x)
  | .bcrepdef pos type => oldReadCell s pos type
  | .plain (.other code) => return (.item code, s.give (.item code))
  | .plain type => oldReadCell s (-1) type

def oldReadBC (n : ℤ) : Except Stop State := do
  -- allocVector of a negative length
  if n < 0 then throw .error
  return ⟨⟨allocVector n.toNat, 0⟩, [], []⟩

def oldStep (s : State) : Action → Except Stop (Event × State)
  | .call c => oldReadBCLang s c
  | .ret => s.ret

/-! ### Whole streams -/

/-- What a reader makes of all of a stream, or of its part up to some point. -/
def stream (step : State → Action → Except Stop (Event × State)) (s : State) :
    List Action → Except Stop (List Event × State)
  | [] => return ([], s)
  | a :: as => do
      let (e, t) ← step s a
      let (es, u) ← stream step t as
      return (e :: es, u)

/-- What comes of a stream: what each call defined and returned, and the cells. -/
def read (n : ℤ) (as : List Action) : Except Stop (List Event × List Cell × List ℕ) := do
  let s ← readBC n
  let (es, t) ← stream step s as
  return (es, t.heap, t.frames)

def oldRead (n : ℤ) (as : List Action) : Except Stop (List Event × List Cell × List ℕ) := do
  let s ← oldReadBC n
  let (es, t) ← stream oldStep s as
  return (es, t.heap, t.frames)

/-- Definitions are numbered on from `k` in reading order, below the declared count `n`,
references name earlier ones, and only what was called returns, `depth` calls being open. -/
def Numbered (n : ℤ) : ℕ → ℕ → List Action → Prop
  | _, _, [] => True
  | k, depth, .call (.bcrepref pos) :: as => (0 ≤ pos ∧ pos < k) ∧ Numbered n k depth as
  | k, depth, .call (.bcrepdef pos _) :: as =>
      (pos = k ∧ pos < n) ∧ Numbered n (k + 1) (depth + 1) as
  | k, depth, .call (.plain type) :: as =>
      Numbered n k (if type.isCell then depth + 1 else depth) as
  | k, depth, .ret :: as => 0 < depth ∧ Numbered n k (depth - 1) as

/-- Every definition is of one of the four types of a cell. -/
def DefinesCells (as : List Action) : Prop :=
  ∀ pos type, .call (.bcrepdef pos type) ∈ as → type.isCell = true

/-! ### The slots -/

/-- The cell most recently defined at an index. -/
def lastDefined (es : List Event) (pos : ℤ) : Option ℕ :=
  es.foldl (fun last e => match e with
    | .defined pos' a => if pos' = pos then some a else last
    | _ => last) none

/-- The definitions read so far are in their slots. -/
structure SlotsHold (es : List Event) (reps : BCReps) : Prop where
  nonneg : 0 ≤ reps.ndefs
  le_length : reps.ndefs ≤ reps.slots.length
  le_intMax : reps.ndefs ≤ intMax
  held : ∀ i : ℕ, i < reps.ndefs →
    ∃ a, lastDefined es i = some a ∧ reps.slots[i]? = some (.cell a)

/-- Growing makes room and keeps every slot; every access is inside its vector. -/
theorem growBCReps_spec (reps : BCReps) :
    ∃ grown, growBCReps reps = .ok grown ∧ grown.ndefs = reps.ndefs ∧
      reps.slots.length < grown.slots.length ∧
      ∀ i < reps.slots.length, grown.slots[i]? = reps.slots[i]? := by
  have hroom (n : ℕ) : n < if n < 16 then 16 else 2 * n := by
    split <;> omega
  obtain ⟨s, hs, hlength, hkept, -⟩ := transfer_range reps.slots
    (allocVector (if reps.slots.length < 16 then 16 else 2 * reps.slots.length)) (fun i => i)
    (n := reps.slots.length) (fun _ hi => hi) (by
      rw [allocVector, List.length_replicate]
      exact Nat.le_of_lt (hroom _))
  rw [allocVector, List.length_replicate] at hlength
  refine ⟨{ reps with slots := s }, ?_, rfl, ?_, hkept⟩
  · simp only [growBCReps, hs]
    rfl
  · rw [hlength]
    exact hroom _

/-- A definition at an admitted index: there is room for it, made if need be. -/
private theorem define_eq (reps : BCReps) {i : ℕ} (hi : i ≤ reps.slots.length) (x : Sexp) :
    ∃ room : List Sexp, i < room.length ∧ reps.slots.length ≤ room.length ∧
      (∀ j < reps.slots.length, room[j]? = reps.slots[j]?) ∧
      reps.define i x = if (i : ℤ) = reps.ndefs
        then BCReps.countDefinition ⟨room.set i x, reps.ndefs⟩
        else .ok ⟨room.set i x, reps.ndefs⟩ := by
  have hstore {room : List Sexp} (h : i < room.length) :
      storeAt room i x = .ok (room.set i x) := by
    rw [storeAt_natCast, store_of_lt h]
  by_cases hfull : reps.slots.length ≤ i
  · obtain ⟨grown, hgrown, hndefs, hlt, hkept⟩ := growBCReps_spec reps
    have hroom : i < grown.slots.length := by omega
    refine ⟨grown.slots, hroom, Nat.le_of_lt hlt, hkept, ?_⟩
    have hge : (i : ℤ) ≥ reps.slots.length := by omega
    simp only [BCReps.define, if_pos hge, hgrown, bind, Except.bind, hstore hroom, hndefs]
    rfl
  · have hroom : i < reps.slots.length := by omega
    refine ⟨reps.slots, hroom, Nat.le_refl _, fun _ _ => rfl, ?_⟩
    have hlt : ¬ (i : ℤ) ≥ reps.slots.length := by omega
    simp only [BCReps.define, if_neg hlt, bind, Except.bind, pure, Except.pure, hstore hroom]

/-- A definition is recorded in its slot and nowhere else. -/
theorem define_spec {reps : BCReps} {i : ℕ} (hi : i ≤ reps.ndefs)
    (hlength : reps.ndefs ≤ reps.slots.length)
    (hmax : i < intMax) (x : Sexp) :
    ∃ after, reps.define i x = .ok after ∧
      after.ndefs = (if (i : ℤ) = reps.ndefs then reps.ndefs + 1 else reps.ndefs) ∧
      after.ndefs ≤ after.slots.length ∧ after.slots[i]? = some x ∧
      ∀ j < reps.slots.length, j ≠ i → after.slots[j]? = reps.slots[j]? := by
  obtain ⟨room, hroom, hle, hkept, heq⟩ := define_eq reps (i := i) (by omega) x
  have hother : ∀ j < reps.slots.length, j ≠ i → (room.set i x)[j]? = reps.slots[j]? := by
    intro j hj hne
    rw [List.getElem?_set_ne (Ne.symm hne), hkept j hj]
  have hself : (room.set i x)[i]? = some x := List.getElem?_set_self hroom
  rw [heq]
  by_cases hnew : (i : ℤ) = reps.ndefs
  · have hcount : asInt (reps.ndefs + 1) = .ok (reps.ndefs + 1) := by
      have hmin : intMin ≤ 0 := by decide
      apply asInt_of_mem <;> omega
    rw [if_pos hnew, if_pos hnew, BCReps.countDefinition, hcount]
    refine ⟨_, rfl, rfl, ?_, hself, hother⟩
    simp only [List.length_set]
    omega
  · rw [if_neg hnew, if_neg hnew]
    refine ⟨_, rfl, rfl, ?_, hself, hother⟩
    simp only [List.length_set]
    omega

/-- The count of definitions is an `int`. -/
theorem define_at_intMax {reps : BCReps} (hmax : reps.ndefs = intMax)
    (hlength : reps.ndefs ≤ reps.slots.length) (x : Sexp) :
    reps.define reps.ndefs x = .error .fault := by
  have hcast : ((reps.ndefs.toNat : ℕ) : ℤ) = reps.ndefs := by
    rw [hmax]
    rfl
  obtain ⟨room, -, -, -, heq⟩ := define_eq reps (i := reps.ndefs.toNat) (by omega) x
  rw [hcast, if_pos rfl, BCReps.countDefinition] at heq
  rw [heq, hmax]
  rfl

/-! ### What a step can do -/

@[simp] private theorem give_reps (s : State) (x : Sexp) : (s.give x).reps = s.reps := by
  unfold State.give
  cases s.frames <;> rfl

/-- A cell that is no definition is allocated and nothing else. -/
private theorem readCell_plain {s : State} {type : SexpType} (h : type.isCell = true) :
    readCell s (-1) type = .ok (.opened s.heap.length, s.allocSExp s.reps type.plainType) := by
  cases type
  case other => cases h
  all_goals rfl

private theorem readCell_other {s : State} {pos : ℤ} {type : SexpType} (h : type.isCell = false) :
    readCell s pos type = .error .error := by
  cases type
  case other => rfl
  all_goals cases h

private theorem readCell_define {s : State} {pos : ℤ} {type : SexpType} (h : type.isCell = true)
    (hpos : 0 ≤ pos) : readCell s pos type =
      (s.reps.define pos (.cell s.heap.length)).map fun reps =>
        (.defined pos s.heap.length, s.allocSExp reps type.plainType) := by
  have hge : pos ≥ 0 := hpos
  have hcell : ¬ (type.plainType.1 ≠ .langsxp ∧ type.plainType.1 ≠ .listsxp) := by
    cases type
    case other => cases h
    all_goals decide
  simp only [readCell, if_neg hcell, if_pos hge]
  cases s.reps.define pos (.cell s.heap.length) <;> rfl

/-- A call with one of the four types is that of a cell. -/
private theorem readBCLang_plain {s : State} {type : SexpType} (h : type.isCell = true) :
    readBCLang s (.plain type) =
      .ok (.opened s.heap.length, s.allocSExp s.reps type.plainType) := by
  rw [← readCell_plain h]
  cases type
  case other => cases h
  all_goals rfl

private theorem readBCLang_ref_error {s : State} {pos : ℤ} (h : pos < 0 ∨ pos ≥ s.reps.ndefs) :
    readBCLang s (.bcrepref pos) = .error .error := by
  simp only [readBCLang, if_pos h]
  rfl

private theorem readBCLang_ref {s : State} {i : ℕ} (h : i < s.reps.ndefs) :
    readBCLang s (.bcrepref i) =
      (load s.reps.slots i).map fun x => (.referred i x, s.give x) := by
  have hin : ¬ ((i : ℤ) < 0 ∨ (i : ℤ) ≥ s.reps.ndefs) := by omega
  simp only [readBCLang, if_neg hin, loadAt_natCast]
  cases load s.reps.slots i <;> rfl

private theorem readBCLang_def_error {s : State} {pos : ℤ} {type : SexpType}
    (h : pos < 0 ∨ pos > s.reps.ndefs) : readBCLang s (.bcrepdef pos type) = .error .error := by
  simp only [readBCLang, if_pos h]
  rfl

private theorem readBCLang_def {s : State} {i : ℕ} {type : SexpType} (h : i ≤ s.reps.ndefs) :
    readBCLang s (.bcrepdef i type) = readCell s i type := by
  have hin : ¬ ((i : ℤ) < 0 ∨ (i : ℤ) > s.reps.ndefs) := by omega
  simp only [readBCLang, if_neg hin]

/-- What a step does: a reference, a definition, or nothing to the slots. -/
private theorem step_cases {s t : State} {a : Action} {e : Event} (h : step s a = .ok (e, t)) :
    (∃ i : ℕ, a = .call (.bcrepref i) ∧ i < s.reps.ndefs ∧ ∃ x, s.reps.slots[i]? = some x ∧
      e = .referred i x ∧ t.reps = s.reps) ∨
    (∃ i : ℕ, ∃ type, a = .call (.bcrepdef i type) ∧ i ≤ s.reps.ndefs ∧
      e = .defined i s.heap.length ∧ s.reps.define i (.cell s.heap.length) = .ok t.reps) ∨
    ((∀ pos, a ≠ .call (.bcrepref pos)) ∧ (∀ pos x, e ≠ .defined pos x) ∧ t.reps = s.reps) := by
  cases a with
  | ret =>
    right; right
    simp only [step, State.ret] at h
    cases hf : s.frames with
    | nil =>
      rw [hf] at h
      cases h
    | cons a rest =>
      rw [hf] at h
      cases h
      exact ⟨nofun, nofun, give_reps _ _⟩
  | call c =>
    cases c with
    | plain type =>
      right; right
      cases htype : type.isCell with
      | false =>
        cases type
        case other code =>
          cases h
          exact ⟨nofun, nofun, give_reps _ _⟩
        all_goals cases htype
      | true =>
        rw [step, readBCLang_plain htype] at h
        cases h
        exact ⟨nofun, nofun, rfl⟩
    | bcrepref pos =>
      left
      rw [step] at h
      by_cases hpos : pos < 0 ∨ pos ≥ s.reps.ndefs
      · rw [readBCLang_ref_error hpos] at h
        cases h
      obtain ⟨i, rfl⟩ := Int.eq_ofNat_of_zero_le (a := pos) (by omega)
      have hi : i < s.reps.ndefs := by omega
      rw [readBCLang_ref hi] at h
      cases hx : load s.reps.slots i with
      | error => simp [hx, Except.map] at h
      | ok x =>
        rw [hx] at h
        cases h
        exact ⟨i, rfl, hi, x, load_eq_ok_iff.mp hx, rfl, give_reps _ _⟩
    | bcrepdef pos type =>
      right; left
      rw [step] at h
      by_cases hpos : pos < 0 ∨ pos > s.reps.ndefs
      · rw [readBCLang_def_error hpos] at h
        cases h
      obtain ⟨i, rfl⟩ := Int.eq_ofNat_of_zero_le (a := pos) (by omega)
      have hi : i ≤ s.reps.ndefs := by omega
      rw [readBCLang_def hi] at h
      cases htype : type.isCell with
      | false =>
        rw [readCell_other htype] at h
        cases h
      | true =>
        rw [readCell_define htype (by omega)] at h
        cases hreps : s.reps.define i (.cell s.heap.length) with
        | error => simp [hreps, Except.map] at h
        | ok reps =>
          rw [hreps] at h
          cases h
          exact ⟨i, type, rfl, hi, rfl, hreps⟩

/-! ### Every run -/

private theorem lastDefined_defined (es : List Event) (pos : ℤ) (a : ℕ) (i : ℤ) :
    lastDefined (es ++ [.defined pos a]) i = if pos = i then some a else lastDefined es i := by
  simp [lastDefined]

private theorem lastDefined_other {es : List Event} {e : Event} (h : ∀ pos x, e ≠ .defined pos x)
    (i : ℤ) : lastDefined (es ++ [e]) i = lastDefined es i := by
  rw [lastDefined, List.foldl_append]
  cases e
  case defined pos a => exact absurd rfl (h pos a)
  all_goals rfl

private theorem system_step_iff {s t : State} {a : Action} {e : Event} :
    system.step s a = some (e, t) ↔ step s a = .ok (e, t) := by
  change (step s a).toOption = some (e, t) ↔ _
  cases step s a <;> simp [Except.toOption]

private theorem readBC_eq_ok_iff {n : ℤ} {s : State} : readBC n = .ok s ↔
    0 ≤ n ∧ s = ⟨⟨allocVector (if n < bcRepsInit then n else bcRepsInit).toNat, 0⟩, [], []⟩ := by
  unfold readBC
  by_cases hn : n < 0
  · rw [if_pos hn]
    exact ⟨nofun, fun h => absurd h.1 (by omega)⟩
  · rw [if_neg hn]
    exact ⟨fun h => by cases h; exact ⟨by omega, rfl⟩, fun h => by rw [h.2]; rfl⟩

/-- The slots hold what has been defined, in every state. -/
theorem slotsHold {es : List Event} {s : State} (h : system.Run es s) : SlotsHold es s.reps := by
  refine System.Run.induct (I := fun es s => SlotsHold es s.reps) ?_ ?_ h
  · rintro s ⟨n, hn⟩
    obtain ⟨-, rfl⟩ := readBC_eq_ok_iff.mp hn
    refine ⟨Int.le_refl 0, Int.natCast_nonneg _, by simp [intMax], fun i hi => ?_⟩
    simp only at hi
    omega
  · rintro es s a e t - hI hs
    obtain ⟨hnonneg, hlength, hmax, hheld⟩ := hI
    rcases step_cases (system_step_iff.mp hs) with
      ⟨i, -, -, x, -, rfl, ht⟩ | ⟨i, type, -, hi, rfl, hdefine⟩ | ⟨-, he, ht⟩
    · rw [ht]
      refine ⟨hnonneg, hlength, hmax, ?_⟩
      simp only [lastDefined_other (e := .referred i x) nofun]
      exact hheld
    · by_cases hfull : i < intMax
      swap
      · have hend : (i : ℤ) = s.reps.ndefs := by omega
        rw [hend, define_at_intMax (by omega) hlength] at hdefine
        cases hdefine
      obtain ⟨after, hafter, hndefs, hle, hself, hother⟩ :=
        define_spec hi hlength hfull (.cell s.heap.length)
      obtain rfl : t.reps = after := by
        rw [hdefine] at hafter
        exact Except.ok.inj hafter
      refine ⟨?_, hle, ?_, fun j hj => ?_⟩
      · rw [hndefs]
        split <;> omega
      · rw [hndefs]
        split <;> omega
      · rw [lastDefined_defined]
        by_cases hij : j = i
        · rw [hij, if_pos rfl]
          exact ⟨_, rfl, hself⟩
        · have hlt : (j : ℤ) < s.reps.ndefs := by
            rw [hndefs] at hj
            split at hj <;> omega
          rw [if_neg (by omega), hother j (by omega) hij]
          exact hheld j hlt
    · rw [ht]
      refine ⟨hnonneg, hlength, hmax, ?_⟩
      simp only [lastDefined_other he]
      exact hheld

/-- Nothing is read or written outside the slots; only the count of definitions, an `int`,
comes to its end. -/
theorem step_fault {es : List Event} {s : State} {a : Action} (hrun : system.Run es s)
    (h : step s a = .error .fault) :
    s.reps.ndefs = intMax ∧ ∃ type, a = .call (.bcrepdef intMax type) := by
  obtain ⟨-, hlength, hmax, hheld⟩ := slotsHold hrun
  cases a with
  | ret =>
    simp only [step, State.ret] at h
    cases hf : s.frames <;> rw [hf] at h <;> cases h
  | call c =>
    rw [step] at h
    cases c with
    | plain type =>
      cases htype : type.isCell with
      | false =>
        cases type
        case other => cases h
        all_goals cases htype
      | true =>
        rw [readBCLang_plain htype] at h
        cases h
    | bcrepref pos =>
      by_cases hpos : pos < 0 ∨ pos ≥ s.reps.ndefs
      · rw [readBCLang_ref_error hpos] at h
        cases h
      obtain ⟨i, rfl⟩ := Int.eq_ofNat_of_zero_le (a := pos) (by omega)
      have hi : i < s.reps.ndefs := by omega
      obtain ⟨a, -, ha⟩ := hheld i hi
      rw [readBCLang_ref hi, load_eq_ok_iff.mpr ha] at h
      cases h
    | bcrepdef pos type =>
      by_cases hpos : pos < 0 ∨ pos > s.reps.ndefs
      · rw [readBCLang_def_error hpos] at h
        cases h
      obtain ⟨i, rfl⟩ := Int.eq_ofNat_of_zero_le (a := pos) (by omega)
      have hi : i ≤ s.reps.ndefs := by omega
      rw [readBCLang_def hi] at h
      cases htype : type.isCell with
      | false =>
        rw [readCell_other htype] at h
        cases h
      | true =>
        by_cases hfull : i < intMax
        · obtain ⟨after, hafter, -⟩ := define_spec hi hlength hfull (.cell s.heap.length)
          rw [readCell_define htype (by omega), hafter] at h
          cases h
        · have hend : (i : ℤ) = intMax := by omega
          exact ⟨by omega, type, by rw [hend]⟩

/-- A reference that is accepted returns what was last defined at its index. -/
theorem reference_returns {es : List Event} {s t : State} {pos : ℤ} {e : Event}
    (hrun : system.Run es s) (h : step s (.call (.bcrepref pos)) = .ok (e, t)) :
    0 ≤ pos ∧ pos < s.reps.ndefs ∧
      ∃ a, lastDefined es pos = some a ∧ e = .referred pos (.cell a) := by
  obtain ⟨-, -, -, hheld⟩ := slotsHold hrun
  rcases step_cases h with ⟨i, ha, hi, x, hx, rfl, -⟩ | ⟨i, type, ha, -⟩ | ⟨ha, -⟩
  · cases ha
    obtain ⟨a, hlast, ha⟩ := hheld i hi
    rw [hx] at ha
    cases ha
    exact ⟨by omega, hi, a, hlast, rfl⟩
  · cases ha
  · exact absurd rfl (ha pos)

/-- A definition grows the slots only when all of them hold definitions. -/
theorem grows_when_full {es : List Event} {s t : State} {pos : ℤ} {type : SexpType} {e : Event}
    (hrun : system.Run es s) (h : step s (.call (.bcrepdef pos type)) = .ok (e, t)) :
    0 ≤ pos ∧ pos ≤ s.reps.ndefs ∧
      (pos ≥ s.reps.slots.length → s.reps.ndefs = s.reps.slots.length) := by
  have hlength := (slotsHold hrun).le_length
  by_cases hpos : pos < 0 ∨ pos > s.reps.ndefs
  · rw [step, readBCLang_def_error hpos] at h
    cases h
  · omega

/-! ### The replaced reader -/

/-- The two readers after `k` definitions. -/
structure Agree (n : ℤ) (k : ℕ) (s t : State) : Prop where
  heap : s.heap = t.heap
  frames : s.frames = t.frames
  ndefs : s.reps.ndefs = k
  le_length : k ≤ s.reps.slots.length
  le_declared : k ≤ n
  declared : t.reps.slots.length = n
  slots : ∀ i < k, s.reps.slots[i]? = t.reps.slots[i]?

private theorem Agree.give {n : ℤ} {k : ℕ} {s t : State} (h : Agree n k s t) (x : Sexp) :
    Agree n k (s.give x) (t.give x) := by
  obtain ⟨hheap, hframes, hndefs, hlength, hle, hdeclared, hslots⟩ := h
  cases hf : s.frames with
  | nil =>
    have hf' : t.frames = [] := hframes ▸ hf
    rw [State.give, State.give, hf, hf']
    exact ⟨hheap, hframes, hndefs, hlength, hle, hdeclared, hslots⟩
  | cons a rest =>
    have hf' : t.frames = a :: rest := hframes ▸ hf
    simp only [State.give, hf, hf']
    exact ⟨by rw [hheap], rfl, hndefs, hlength, hle, hdeclared, hslots⟩

@[simp] private theorem give_frames (s : State) (x : Sexp) : (s.give x).frames = s.frames := by
  unfold State.give
  cases hf : s.frames <;> simp [hf]

private theorem oldReadCell_plain {s : State} {type : SexpType} (h : type.isCell = true) :
    oldReadBCLang s (.plain type) =
      .ok (.opened s.heap.length, s.allocSExp s.reps type.plainType) := by
  cases type
  case other => cases h
  all_goals rfl

private theorem oldReadCell_define {s : State} {i : ℕ} {type : SexpType}
    (h : i < s.reps.slots.length) : oldReadBCLang s (.bcrepdef i type) =
      .ok (.defined i s.heap.length, s.allocSExp
        { s.reps with slots := s.reps.slots.set i (.cell s.heap.length) } type.plainType) := by
  have hge : (i : ℤ) ≥ 0 := by omega
  simp only [oldReadBCLang, oldReadCell, if_pos hge, storeAt_natCast, store_of_lt h]
  rfl

private theorem oldReadBCLang_ref {s : State} {i : ℕ} {x : Sexp} (h : s.reps.slots[i]? = some x) :
    oldReadBCLang s (.bcrepref i) = .ok (.referred i x, s.give x) := by
  simp only [oldReadBCLang, loadAt_natCast, load_eq_ok_iff.mpr h]
  rfl

private theorem Agree.allocSExp {n : ℤ} {k : ℕ} {s t : State} (h : Agree n k s t)
    (type : SexpType × Bool) :
    Agree n k (s.allocSExp s.reps type) (t.allocSExp t.reps type) := by
  obtain ⟨hheap, hframes, hndefs, hlength, hle, hdeclared, hslots⟩ := h
  refine ⟨?_, ?_, hndefs, hlength, hle, hdeclared, hslots⟩
  · simp only [State.allocSExp, hheap]
  · simp only [State.allocSExp, hheap, hframes]

/-- The readers take a step of such a stream together. -/
private theorem agree_step {n : ℤ} {k : ℕ} {s t : State} {a : Action} {as : List Action}
    (hn : n ≤ intMax) (h : Agree n k s t) (hnum : Numbered n k s.frames.length (a :: as))
    (hcells : DefinesCells (a :: as)) :
    ∃ e s' t' k', step s a = .ok (e, s') ∧ oldStep t a = .ok (e, t') ∧ Agree n k' s' t' ∧
      Numbered n k' s'.frames.length as := by
  cases a with
  | ret =>
    obtain ⟨hdepth, hnum⟩ := hnum
    obtain ⟨a, rest, hf⟩ := List.exists_cons_of_length_pos hdepth
    have hf' : t.frames = a :: rest := h.frames ▸ hf
    have hrest : Agree n k { s with frames := rest } { t with frames := rest } :=
      ⟨h.heap, rfl, h.ndefs, h.le_length, h.le_declared, h.declared, h.slots⟩
    refine ⟨_, _, _, k, by rw [step, State.ret, hf], by rw [oldStep, State.ret, hf'],
      hrest.give _, ?_⟩
    simpa [hf] using hnum
  | call c =>
    cases c with
    | plain type =>
      cases htype : type.isCell with
      | false =>
        cases type
        case other code =>
          refine ⟨_, _, _, k, rfl, rfl, h.give _, ?_⟩
          rw [give_frames]
          exact hnum
        all_goals cases htype
      | true =>
        refine ⟨_, _, _, k, readBCLang_plain htype, ?_, h.allocSExp type.plainType, ?_⟩
        · rw [oldStep, oldReadCell_plain htype, h.heap]
        · rw [Numbered, htype] at hnum
          exact hnum
    | bcrepref pos =>
      obtain ⟨⟨hpos, hlt⟩, hnum⟩ := hnum
      obtain ⟨i, rfl⟩ := Int.eq_ofNat_of_zero_le hpos
      have hi : i < k := by omega
      have hlength := h.le_length
      obtain ⟨x, hx⟩ : ∃ x, s.reps.slots[i]? = some x :=
        ⟨_, List.getElem?_eq_getElem (by omega)⟩
      refine ⟨_, _, _, k, ?_, oldReadBCLang_ref ((h.slots i hi).symm.trans hx), h.give _, ?_⟩
      · rw [step, readBCLang_ref (by rw [h.ndefs]; omega), load_eq_ok_iff.mpr hx]
        rfl
      · rw [give_frames]
        exact hnum
    | bcrepdef pos type =>
      obtain ⟨⟨rfl, hlt⟩, hnum⟩ := hnum
      have htype := hcells _ _ List.mem_cons_self
      have hndefs := h.ndefs
      have hlength := h.le_length
      have hdeclared := h.declared
      have hroom : k < t.reps.slots.length := by omega
      have hi : k ≤ s.reps.ndefs := by omega
      obtain ⟨after, hafter, hcount, hle, hself, hother⟩ :=
        define_spec hi (by omega) (by omega) (.cell s.heap.length)
      rw [if_pos hndefs.symm] at hcount
      refine ⟨_, s.allocSExp after type.plainType, _, k + 1, ?_, oldReadCell_define hroom, ?_, ?_⟩
      · rw [step, readBCLang_def (by omega), readCell_define htype (by omega), hafter, ← h.heap]
        rfl
      · refine ⟨?_, ?_, ?_, ?_, ?_, ?_, fun i hi => ?_⟩
        · simp only [State.allocSExp, h.heap]
        · simp only [State.allocSExp, h.heap, h.frames]
        · simp only [State.allocSExp, hcount, hndefs]
          omega
        · simp only [State.allocSExp]
          omega
        · omega
        · simpa [State.allocSExp] using hdeclared
        · simp only [State.allocSExp]
          by_cases hik : i = k
          · rw [hik, hself, List.getElem?_set_self hroom, h.heap]
          · rw [hother i (by omega) hik, List.getElem?_set_ne (Ne.symm hik)]
            exact h.slots i (by omega)
      · exact hnum

private theorem agree_stream {n : ℤ} {k : ℕ} {s t : State} {as : List Action}
    (hn : n ≤ intMax) (h : Agree n k s t) (hnum : Numbered n k s.frames.length as)
    (hcells : DefinesCells as) :
    ∃ es s' t', stream step s as = .ok (es, s') ∧ stream oldStep t as = .ok (es, t') ∧
      s'.heap = t'.heap ∧ s'.frames = t'.frames := by
  induction as generalizing k s t with
  | nil => exact ⟨[], s, t, rfl, rfl, h.heap, h.frames⟩
  | cons a as ih =>
    obtain ⟨e, s', t', k', hs, ht, h', hnum'⟩ := agree_step hn h hnum hcells
    obtain ⟨es, s'', t'', hs', ht', hheap, hframes⟩ :=
      ih h' hnum' fun pos type ha => hcells pos type (List.mem_cons_of_mem _ ha)
    refine ⟨e :: es, s'', t'', ?_, ?_, hheap, hframes⟩
    · simp only [stream, hs, hs', bind, Except.bind, pure, Except.pure]
    · simp only [stream, ht, ht', bind, Except.bind, pure, Except.pure]

/-- A stream that numbers its definitions is read as before. -/
theorem read_eq_oldRead {n : ℤ} {as : List Action} (hn : n ≤ intMax) (hnum : Numbered n 0 0 as)
    (hcells : DefinesCells as) :
    read n as = oldRead n as ∧ (0 ≤ n → ∃ r, read n as = .ok r) := by
  by_cases hneg : n < 0
  · refine ⟨?_, fun h => by omega⟩
    simp only [read, oldRead, readBC, oldReadBC, if_pos hneg]
    rfl
  have hagree : Agree n 0 ⟨⟨allocVector (if n < bcRepsInit then n else bcRepsInit).toNat, 0⟩, [], []⟩
      ⟨⟨allocVector n.toNat, 0⟩, [], []⟩ := by
    refine ⟨rfl, rfl, rfl, Nat.zero_le _, by omega, ?_, fun _ hi => absurd hi (Nat.not_lt_zero _)⟩
    rw [allocVector, List.length_replicate]
    omega
  obtain ⟨es, s, t, hs, ht, hheap, hframes⟩ := agree_stream hn hagree hnum hcells
  have hread : read n as = .ok (es, s.heap, s.frames) := by
    simp only [read, readBC, if_neg hneg, bind, Except.bind, pure, Except.pure, hs]
  refine ⟨?_, fun _ => ⟨_, hread⟩⟩
  rw [hread]
  simp only [oldRead, oldReadBC, if_neg hneg, bind, Except.bind, pure, Except.pure, ht, hheap, hframes]

/-! ### The slots and the streams together -/

/-- Definitions can be numbered as far as the `int` that counts them goes. -/
private theorem definitions_run (k : ℕ) (hk : k ≤ intMax) :
    ∃ es s, system.Run es s ∧ s.reps.ndefs = k := by
  induction k with
  | zero => exact ⟨[], _, System.Run.init ⟨0, rfl⟩, rfl⟩
  | succ k ih =>
    obtain ⟨es, s, hrun, hndefs⟩ := ih (by omega)
    have hlength := (slotsHold hrun).le_length
    have hi : k ≤ s.reps.ndefs := by omega
    obtain ⟨after, hafter, hcount, -⟩ := define_spec hi hlength (by omega) (.cell s.heap.length)
    rw [if_pos hndefs.symm] at hcount
    have hstep : step s (.call (.bcrepdef k .langsxp)) =
        .ok (.defined k s.heap.length, s.allocSExp after (.langsxp, false)) := by
      rw [step, readBCLang_def (by omega), readCell_define rfl (by omega), hafter]
      rfl
    refine ⟨_, _, hrun.snoc (system_step_iff.mpr hstep), ?_⟩
    simp only [State.allocSExp, hcount, hndefs]
    omega

/-- In every run the definitions are in their slots, nothing outside the slots is read or
written, and a reference returns what was last defined at its index; growing copies the
slots that hold definitions and loses none; and a stream that numbers its definitions of
cells is read as before. Only a definition numbered `INT_MAX` takes the count of definitions
past its type. -/
theorem readBCLang_slots :
    (∀ es s, system.Run es s → SlotsHold es s.reps ∧
      (∀ a, step s a = .error .fault →
        s.reps.ndefs = intMax ∧ ∃ type, a = .call (.bcrepdef intMax type)) ∧
      (∀ pos e t, step s (.call (.bcrepref pos)) = .ok (e, t) → 0 ≤ pos ∧ pos < s.reps.ndefs ∧
        ∃ a, lastDefined es pos = some a ∧ e = .referred pos (.cell a)) ∧
      ∀ pos type e t, step s (.call (.bcrepdef pos type)) = .ok (e, t) →
        0 ≤ pos ∧ pos ≤ s.reps.ndefs ∧
          (pos ≥ s.reps.slots.length → s.reps.ndefs = s.reps.slots.length)) ∧
    (∀ reps, ∃ grown, growBCReps reps = .ok grown ∧ grown.ndefs = reps.ndefs ∧
      reps.slots.length < grown.slots.length ∧
      ∀ i < reps.slots.length, grown.slots[i]? = reps.slots[i]?) ∧
    ∀ n as, n ≤ intMax → Numbered n 0 0 as → DefinesCells as →
      read n as = oldRead n as ∧ (0 ≤ n → ∃ r, read n as = .ok r) :=
  ⟨fun _ _ h => ⟨slotsHold h, fun _ => step_fault h, fun _ _ _ => reference_returns h,
      fun _ _ _ _ => grows_when_full h⟩,
    growBCReps_spec, fun _ _ hn hnum hcells => read_eq_oldRead hn hnum hcells⟩

theorem readBCLang_slots_nested :
    read 2 [.call (.bcrepdef 0 .langsxp), .call (.bcrepdef 1 .attrlistsxp), .call (.bcrepref 0),
      .ret, .call (.bcrepref 1), .ret] =
    oldRead 2 [.call (.bcrepdef 0 .langsxp), .call (.bcrepdef 1 .attrlistsxp),
      .call (.bcrepref 0), .ret, .call (.bcrepref 1), .ret] :=
  (readBCLang_slots.2.2 2 _ (by decide) (by simp [Numbered]) (by
    intro pos type h
    simp only [List.mem_cons, Action.call.injEq, Call.bcrepdef.injEq, reduceCtorEq, or_false,
      List.not_mem_nil] at h
    obtain ⟨-, rfl⟩ | ⟨-, rfl⟩ := h <;> rfl)).1

/-- A `DOTSXP` with its two parts. -/
def dotsStream : List Action :=
  [.call (.bcrepdef 0 (.other 17)), .call (.plain (.other 14)), .call (.plain (.other 254)), .ret]

/-- A definition may be numbered as it should be and yet be refused, for a type that has parts but is
no cell's; and the count of definitions does come to its end. -/
theorem numbered_stream_refused :
    (Numbered 1 0 0 dotsStream ∧ read 1 dotsStream = .error .error ∧
      oldRead 1 dotsStream = .ok ([.defined 0 0, .item 14, .item 254, .closed 0],
        [⟨.other 17, false, [.item 14, .item 254]⟩], [])) ∧
    ∃ es s, system.Run es s ∧ step s (.call (.bcrepdef intMax .langsxp)) = .error .fault := by
  refine ⟨⟨by simp [dotsStream, Numbered, SexpType.isCell], rfl, rfl⟩, ?_⟩
  obtain ⟨es, s, hrun, hndefs⟩ := definitions_run intMax.toNat (by decide)
  have hmax : s.reps.ndefs = intMax := hndefs
  refine ⟨es, s, hrun, ?_⟩
  have hcast : (intMax.toNat : ℤ) = intMax := rfl
  have hdef : readBCLang s (.bcrepdef intMax .langsxp) = readCell s intMax .langsxp := by
    rw [← hcast]
    exact readBCLang_def (by omega)
  rw [step, hdef, readCell_define rfl (by decide), ← hmax,
    define_at_intMax hmax (slotsHold hrun).le_length]
  rfl

end ROssFuzz.BytecodeReps
