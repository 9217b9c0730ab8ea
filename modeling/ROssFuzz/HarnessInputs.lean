import ROssFuzz.CStrings
import ROssFuzz.LenientDecoder
import ROssFuzz.RepeatGuardArithmetic
import ROssFuzz.SortLines
import ROssFuzz.StagedCalls

/-!
# What the harnesses make of an input

The steps that the `fuzz_target_run` functions share: the checks of an input, its copy in a
buffer on the stack, the two guards, and R's strings made of the copy. A buffer's bytes are
arbitrary before it is written to. R's objects are as far described as the harnesses build
them.
-/

namespace ROssFuzz.HarnessInputs
open CheckedOperations CStrings SortLines StagedCalls

/-- `cetype_t`. -/
inductive Mark | native | utf8 | latin1 deriving DecidableEq

/-- A file is named by what it holds; a closure by the table of its source and its index
there; a double by its literal, `real 3 1` for 0.3. -/
inductive Value
  | null
  | symbol (name : String)
  | logical (b : Bool)
  | integer (n : ℤ)
  | real (mantissa : ℤ) (decimals : ℕ)
  | complexZero
  | naString
  | string (mark : Mark) (bytes : Bytes)
  | strings (elements : List Bytes)
  | raw (bytes : Bytes)
  | closure (table : String) (i : ℕ)
  | function (name : String)
  | file (bytes : Bytes)
  | scratchDir
  deriving DecidableEq

/-- What `LLVMFuzzerTestOneInput` gets, and what is on the stack below. -/
structure Input where
  data : Bytes
  stack : ℕ → UInt8

/-- The program that a target makes of an input is covered, and nothing of it depends on what
was on the stack. -/
def Determined {κ : Type} (fuzzTargetRun : Input → Except Stop (Program κ Value)) : Prop :=
  ∀ data, ∃ p, p.Covered ∅ ∧ ∀ stack, fuzzTargetRun ⟨data, stack⟩ = .ok p

/-! ### Calls -/

section Calls
variable {κ : Type}

abbrev cell (c : κ) : Call κ Value := .leaf (.cell c)

abbrev value (v : Value) : Call κ Value := .leaf (.value v)

/-- `Rf_install`. -/
abbrev install (name : String) : Call κ Value := value (.symbol name)

/-- `Rf_mkString` of an ASCII literal. -/
abbrev mkString (text : String) : Call κ Value := value (.string .native (ascii text))

/-- `Rf_lang2` to `Rf_lang6`. -/
abbrev lang (xs : List (Call κ Value)) : Call κ Value := .ofList xs

end Calls

/-! ### Buffers and strings -/

/-- `char buffer[capacity]`, filled with the input from `start` on and a NUL. -/
def copyIn (input : Input) (capacity start : ℕ) : Except Stop Bytes := do
  let buffer ← memcpy ((List.range capacity).map input.stack) 0 (input.data.drop start)
  store buffer (input.data.length - start) 0

/-- `Rf_mkChar`, of a pointer at `p` into the block. -/
def mkChar (block : Bytes) (p : ℕ) : Except Stop Bytes := do
  .ok ((block.drop p).take (← strlen (block.drop p)))

/-- The C string at the block's start, as the guards are given it. -/
def cString (block : Bytes) : Except Stop Bytes := do .ok (block.take ((← strlen block) + 1))

/-- `size < start + 1 || size > FUZZ_MAX_INPUT || memchr(data + start, '\0', size - start)`. -/
def refused (fuzzMaxInput start : ℕ) (data : Bytes) : Except Stop Bool :=
  if data.length < start + 1 ∨ fuzzMaxInput < data.length then .ok true
  else do .ok (← memchr data start 0 (data.length - start)).isSome

/-- A guard looks at a C string, none where it would leave it. It answers for every text. -/
structure Guard where
  excessive : Bytes → Option Bool
  answers : ∀ text, 0 ∉ text → (excessive (text ++ [0])).isSome

def answer : Option Bool → Except Stop Bool
  | some excessive => .ok excessive
  | none => .error .fault

def Guard.asked (guard : Guard) (block : Bytes) : Except Stop Bool := do
  answer (guard.excessive (← cString block))

/-- What the guard says of a text. -/
def Guard.refuses (guard : Guard) (text : Bytes) : Bool := guard.excessive (text ++ [0]) == some true

/-- No guard. -/
def Guard.idle : Guard where
  excessive _ := some false
  answers _ _ := rfl

def Guard.repeatProduct : Guard where
  excessive := RepeatGuardArithmetic.fuzzRepeatProductExcessive
  answers text h := by
    obtain ⟨excessive, hanswer⟩ := RepeatGuardArithmetic.fuzzRepeatProductExcessive_returns h
    rw [hanswer]
    rfl

theorem fuzzChartrTableExcessive_answers {text : Bytes} (h : 0 ∉ text) :
    (LenientDecoder.fuzzChartrTableExcessive (text ++ [0])).isSome = true := by
  obtain ⟨rounds, excessive, -, hrun⟩ := @LenientDecoder.scan_spec text text.length 0 0 0
    .uninitialised rfl rfl (by omega) (by decide)
  exact Option.isSome_iff_exists.mpr ⟨excessive, LenientDecoder.fuzzChartrTableExcessive_of_scan h
    fun fuel hfuel => ⟨rounds, hrun fuel hfuel⟩⟩

def Guard.chartrTable : Guard where
  excessive := LenientDecoder.fuzzChartrTableExcessive
  answers _ := fuzzChartrTableExcessive_answers

theorem length_cons_lt_two {x : UInt8} {xs : Bytes} : (x :: xs).length < 2 ↔ xs = [] := by
  cases xs <;> simp

/-- The whole input in the copy, then its NUL, then what was there before. -/
theorem copyIn_eq (input : Input) (capacity start : ℕ)
    (h : input.data.length - start < capacity) :
    ∃ rest, copyIn input capacity start = .ok (input.data.drop start ++ 0 :: rest) := by
  have hbuffer : ((List.range capacity).map input.stack).length = capacity := by simp
  have hfits : (input.data.drop start).length ≤ ((List.range capacity).map input.stack).length := by
    simp
    omega
  obtain ⟨rest, hcopy, hlength⟩ := memcpy_after [] _ hfits
  have hroom : 0 < rest.length := by
    simp at hlength
    omega
  obtain ⟨rest', hstore, -⟩ := store_after (input.data.drop start) 0 hroom
  refine ⟨rest', ?_⟩
  rw [List.length_drop] at hstore
  simp only [List.nil_append, List.length_nil] at hcopy
  rw [copyIn, hcopy]
  refine hstore.trans ?_
  simp

theorem mkChar_eq {before text rest : Bytes} (h : 0 ∉ text) :
    mkChar (before ++ text ++ 0 :: rest) before.length = .ok text := by
  have hholds : HoldsText (text ++ 0 :: rest) text := ⟨h, rest, rfl⟩
  rw [mkChar, List.append_assoc, List.drop_left, hholds.strlen]
  exact congrArg Except.ok hholds.take

theorem mkChar_zero {text rest : Bytes} (h : 0 ∉ text) : mkChar (text ++ 0 :: rest) 0 = .ok text :=
  @mkChar_eq [] text rest h

theorem cString_eq {text rest : Bytes} (h : 0 ∉ text) :
    cString (text ++ 0 :: rest) = .ok (text ++ [0]) := by
  have hholds : HoldsText (text ++ 0 :: rest) text := ⟨h, rest, rfl⟩
  rw [cString, hholds.strlen]
  change Except.ok _ = _
  rw [List.take_append]
  simp

theorem refused_eq (fuzzMaxInput start : ℕ) (data : Bytes) :
    refused fuzzMaxInput start data = .ok (decide (data.length < start + 1 ∨
      fuzzMaxInput < data.length ∨ 0 ∈ data.drop start)) := by
  rw [refused]
  split
  next h => rw [decide_eq_true (by tauto)]
  next h =>
    have htake : (data.drop start).take (data.length - start) = data.drop start :=
      List.take_of_length_le (by simp)
    rw [memchr, if_pos (by omega), htake]
    by_cases hmem : 0 ∈ data.drop start
    · simp [hmem, bind, Except.bind]
    · simp [hmem, bind, Except.bind]
      omega

theorem Guard.asked_eq (guard : Guard) {text rest : Bytes} (h : 0 ∉ text) :
    guard.asked (text ++ 0 :: rest) = .ok (guard.refuses text) := by
  rw [asked, refuses, cString_eq h]
  change answer (guard.excessive (text ++ [0])) = _
  cases hanswer : guard.excessive (text ++ [0]) with
  | none =>
    have hsome := guard.answers text h
    simp [hanswer] at hsome
  | some excessive => cases excessive <;> rfl

end ROssFuzz.HarnessInputs
