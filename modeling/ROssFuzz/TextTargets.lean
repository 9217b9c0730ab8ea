import ROssFuzz.HarnessInputs

/-!
# The targets of one cell

Most targets keep one R vector, or one file, and evaluate calls on it. `colors`, `dcf`,
`grep`, `parse`, `rd`, `readtable`, `scan` and `sprintf` take a slot from the first byte and
a string without NUL from the others; `coerce` and `agrep` take the whole input as the
string and evaluate all their calls; `load` and `zip` take a slot and a file.
-/

namespace ROssFuzz.TextTargets
open CheckedOperations CStrings HarnessInputs StagedCalls

/-- One `Rf_lang*` of the closure made of each of the sources. -/
def closures {κ : Type} (n : ℕ) (args : List (Call κ Value)) : List (Call κ Value) :=
  (List.range n).map fun i => lang (value (.closure "sources" i) :: args)

/-- The fixed strings of `grep` and `agrep`. -/
def subjects : Value := .strings (["hello world", "foo bar baz 123",
  "the quick brown fox jumps over the lazy dog", "aaaaaaaaaaaaaaaaaaaaaaaaaaaaaab", ""].map ascii)

/-- What one target has of its own. -/
structure TextTarget where
  fuzzMaxInput : ℕ
  calls : List (Call Unit Value)
  slot : UInt8 → ℕ
  slot_lt : ∀ b, slot b < calls.length
  guard : Guard := .idle

def TextTarget.fuzzTargetRun (target : TextTarget) (input : Input) :
    Except Stop (Program Unit Value) := do
  if ← refused target.fuzzMaxInput 1 input.data then .ok .done
  else
    let buffer ← copyIn input target.fuzzMaxInput 1
    if ← target.guard.asked buffer then .ok .done
    else
      let text ← mkChar buffer 0
      let call ← load target.calls (target.slot (← load input.data 0))
      .ok (.stage () (.string .native text) (.eval call fun _ => .done))

/-- `data[0] % N_CALLS`. -/
def TextTarget.ofCalls (fuzzMaxInput : ℕ) (calls : List (Call Unit Value))
    (h : 0 < calls.length) : TextTarget where
  fuzzMaxInput := fuzzMaxInput
  calls := calls
  slot b := b.toNat % calls.length
  slot_lt _ := Nat.mod_lt _ h

/-- `data[0] & 1`, with the two calls of `dcf.c` and `rd.c`. -/
def TextTarget.ofFlag (fuzzMaxInput : ℕ) : TextTarget where
  fuzzMaxInput := fuzzMaxInput
  calls := [false, true].map fun b =>
    lang [value (.closure "source" 0), cell (), value (.logical b)]
  slot b := (b &&& 1).toNat
  slot_lt b := by
    have hand : (b &&& 1).toNat = b.toNat % 2 := by simp
    simp only [hand, List.length_map, List.length_cons, List.length_nil]
    omega

namespace Colors
def target : TextTarget := .ofCalls (1024 * 16) (closures 16 [cell ()]) (by decide)
end Colors

namespace Dcf
def target : TextTarget := .ofFlag (1024 * 64)
end Dcf

namespace Grep
def target : TextTarget :=
  { TextTarget.ofCalls (1024 * 64) (closures 16 [cell (), value subjects]) (by decide) with
    guard := .repeatProduct }
end Grep

namespace Parse
/-- `run_slot(0)` is a call of the parser from C. -/
def target : TextTarget :=
  .ofCalls (1024 * 16) (lang [value (.function "R_ParseVector"), cell ()] ::
    (closures 7 [cell ()]).tail) (by decide)
end Parse

namespace Rd
def target : TextTarget := .ofFlag (1024 * 64)
end Rd

namespace Readtable
def target : TextTarget := .ofCalls (1024 * 64) (closures 20 [cell ()]) (by decide)
end Readtable

namespace Scan
def target : TextTarget := .ofCalls (1024 * 64) (closures 18 [cell ()]) (by decide)
end Scan

namespace Sprintf
def string : Call Unit Value := mkString "fuzz"
def integer : Call Unit Value := value (.integer (-12345))
def real : Call Unit Value := value (.real 3141592653589793 15)
def target : TextTarget := .ofCalls (1024 * 16)
  [lang [install "sprintf", cell (), string], lang [install "sprintf", cell (), integer],
    lang [install "sprintf", cell (), real],
    lang [install "sprintf", cell (), integer, real, string]] (by decide)
end Sprintf

/-- What a target makes of its input: nothing of one that it refuses, and of any other the
whole text in its vector, for the call of its slot. -/
theorem TextTarget.fuzzTargetRun_eq (target : TextTarget) (slot : UInt8) (text : Bytes) :
    ∃ call, target.calls[target.slot slot]? = some call ∧
      ∀ stack, target.fuzzTargetRun ⟨slot :: text, stack⟩ = .ok
      (if text = [] ∨ target.fuzzMaxInput < text.length + 1 ∨ 0 ∈ text ∨
          target.guard.refuses text = true then .done
        else .stage () (.string .native text) (.eval call fun _ => .done)) := by
  have hslot := target.slot_lt slot
  refine ⟨target.calls[target.slot slot], List.getElem?_eq_getElem hslot, fun stack => ?_⟩
  generalize hinput : (⟨slot :: text, stack⟩ : Input) = input
  have hdata : input.data = slot :: text := by rw [← hinput]
  have hrefused : (input.data.length < 1 + 1 ∨ target.fuzzMaxInput < input.data.length ∨
      0 ∈ input.data.drop 1) ↔ text = [] ∨ target.fuzzMaxInput < text.length + 1 ∨ 0 ∈ text := by
    rw [hdata]
    exact or_congr length_cons_lt_two Iff.rfl
  rw [fuzzTargetRun, refused_eq]
  by_cases h : text = [] ∨ target.fuzzMaxInput < text.length + 1 ∨ 0 ∈ text
  · have hskip : text = [] ∨ target.fuzzMaxInput < text.length + 1 ∨ 0 ∈ text ∨
        target.guard.refuses text = true := by tauto
    rw [decide_eq_true (hrefused.mpr h), if_pos hskip]
    rfl
  · obtain ⟨hne, hmax, hnonzero⟩ : text ≠ [] ∧ ¬ target.fuzzMaxInput < text.length + 1 ∧ 0 ∉ text := by
      tauto
    obtain ⟨rest, hcopy⟩ := copyIn_eq input target.fuzzMaxInput 1
      (by rw [hdata]; simp; omega)
    have htext : input.data.drop 1 = text := by rw [hdata]; rfl
    rw [htext] at hcopy
    have hload : load input.data 0 = .ok slot := by rw [hdata]; rfl
    rw [decide_eq_false (mt hrefused.mp h)]
    change (copyIn input target.fuzzMaxInput 1 >>= _) = _
    rw [hcopy]
    change (target.guard.asked (text ++ 0 :: rest) >>= _) = _
    rw [target.guard.asked_eq hnonzero]
    by_cases hguard : target.guard.refuses text = true
    · rw [if_pos (by tauto), hguard]
      rfl
    · rw [if_neg (by tauto), Bool.eq_false_iff.mpr hguard]
      change (mkChar (text ++ 0 :: rest) 0 >>= _) = _
      rw [mkChar_zero hnonzero, hload]
      change (load target.calls (target.slot slot) >>= _) = _
      rw [load_of_lt hslot]
      rfl

/-! ### The whole input -/

/-- The calls in turn, whatever comes of each. -/
def evalAll : List (Call Unit Value) → Program Unit Value
  | [] => .done
  | call :: calls => .eval call fun _ => evalAll calls

/-- `coerce.c` and `agrep.c`. -/
structure WholeTarget where
  fuzzMaxInput : ℕ
  calls : List (Call Unit Value)
  guard : Guard := .idle

def WholeTarget.fuzzTargetRun (target : WholeTarget) (input : Input) :
    Except Stop (Program Unit Value) := do
  if input.data.length = 0 ∨ target.fuzzMaxInput < input.data.length then .ok .done
  else
    let buf ← copyIn input (target.fuzzMaxInput + 1) 0
    if ← target.guard.asked buf then .ok .done
    else .ok (.stage () (.string .native (← mkChar buf 0)) (evalAll target.calls))

namespace Coerce
def target : WholeTarget where
  fuzzMaxInput := 1024 * 64
  calls := [lang [install "as.numeric", cell ()], lang [install "as.complex", cell ()],
    lang [install "as.logical", cell ()],
    (lang [install "type.convert", cell (), value (.logical true)]).setTag "as.is" 2]
end Coerce

namespace Agrep
def target : WholeTarget where
  fuzzMaxInput := 1024 * 64
  calls :=
    [(lang [install "agrep", cell (), value subjects, value (.real 3 1)]).setTag "max.distance" 3,
      (lang [install "agrepl", cell (), value subjects, value (.real 3 1)]).setTag "max.distance" 3,
      (lang [install "agrep", cell (), value subjects, value (.logical false)]).setTag "fixed" 3]
  guard := .repeatProduct
end Agrep

/-- What is staged ends at the first NUL of the input. -/
def beforeNul (data : Bytes) : Bytes := data.takeWhile (· ≠ 0)

theorem beforeNul_spec (data rest : Bytes) :
    0 ∉ beforeNul data ∧ ∃ rest', data ++ 0 :: rest = beforeNul data ++ 0 :: rest' := by
  constructor
  · intro h
    simpa using List.mem_takeWhile_imp h
  · induction data with
    | nil => exact ⟨rest, rfl⟩
    | cons b data ih =>
      obtain ⟨rest', hrest⟩ := ih
      by_cases hb : b = 0
      · exact ⟨data ++ 0 :: rest, by simp [beforeNul, hb]⟩
      · exact ⟨rest', by simp only [beforeNul, List.cons_append] at hrest ⊢; simp [hb, hrest]⟩

theorem WholeTarget.fuzzTargetRun_eq (target : WholeTarget) (data : Bytes) (stack : ℕ → UInt8) :
    target.fuzzTargetRun ⟨data, stack⟩ = .ok
      (if data = [] ∨ target.fuzzMaxInput < data.length ∨
          target.guard.refuses (beforeNul data) = true then .done
        else .stage () (.string .native (beforeNul data)) (evalAll target.calls)) := by
  generalize hinput : (⟨data, stack⟩ : Input) = input
  obtain rfl : data = input.data := by rw [← hinput]
  rw [fuzzTargetRun]
  by_cases h : input.data.length = 0 ∨ target.fuzzMaxInput < input.data.length
  · rw [if_pos h, if_pos]
    rcases h with h | h
    · exact .inl (List.eq_nil_of_length_eq_zero h)
    · exact .inr (.inl h)
  · obtain ⟨hne, hmax⟩ := not_or.mp h
    obtain ⟨rest, hcopy⟩ := copyIn_eq input (target.fuzzMaxInput + 1) 0 (by omega)
    rw [List.drop_zero] at hcopy
    obtain ⟨hnonzero, rest', hrest⟩ := beforeNul_spec input.data rest
    rw [if_neg h, hcopy, hrest]
    change (target.guard.asked (beforeNul input.data ++ 0 :: rest') >>= _) = _
    rw [target.guard.asked_eq hnonzero]
    have hnil : input.data ≠ [] := fun hnil => hne (congrArg List.length hnil)
    by_cases hguard : target.guard.refuses (beforeNul input.data) = true
    · rw [if_pos (by tauto), hguard]
      rfl
    · rw [if_neg (by tauto), Bool.eq_false_iff.mpr hguard]
      change (mkChar (beforeNul input.data ++ 0 :: rest') 0 >>= _) = _
      rw [mkChar_zero hnonzero]
      rfl

/-! ### A file -/

/-- `load.c` and `zip.c`: the cell is the scratch file that the calls name. -/
structure FileTarget where
  fuzzMaxInput : ℕ
  calls : List (Call Unit Value)
  calls_ne : 0 < calls.length

def FileTarget.fuzzTargetRun (target : FileTarget) (input : Input) :
    Except Stop (Program Unit Value) := do
  if input.data.length < 2 ∨ target.fuzzMaxInput < input.data.length then .ok .done
  else
    let call ← load target.calls ((← load input.data 0).toNat % target.calls.length)
    .ok (.stage () (.file (input.data.drop 1)) (.eval call fun _ => .done))

namespace Load
def target : FileTarget := ⟨1024 * 64, closures 2 [cell ()], by decide⟩
end Load

namespace Zip
/-- The second argument is `exdir`, the name of a directory that the closures empty. -/
def target : FileTarget := ⟨1024 * 64, closures 4 [cell (), value .scratchDir], by decide⟩
end Zip

theorem FileTarget.fuzzTargetRun_eq (target : FileTarget) (slot : UInt8) (payload : Bytes) :
    ∃ call, target.calls[slot.toNat % target.calls.length]? = some call ∧
      ∀ stack, target.fuzzTargetRun ⟨slot :: payload, stack⟩ = .ok
        (if payload = [] ∨ target.fuzzMaxInput < payload.length + 1 then .done
          else .stage () (.file payload) (.eval call fun _ => .done)) := by
  have hslot := Nat.mod_lt slot.toNat target.calls_ne
  refine ⟨target.calls[slot.toNat % target.calls.length], List.getElem?_eq_getElem hslot,
    fun stack => ?_⟩
  rw [fuzzTargetRun, if_congr (or_congr_left length_cons_lt_two) rfl rfl]
  by_cases h : payload = [] ∨ target.fuzzMaxInput < (slot :: payload).length
  · rw [if_pos h, if_pos (by simpa using h)]
  · rw [if_neg h, if_neg (by simpa using h)]
    change (load target.calls (slot.toNat % target.calls.length) >>= _) = _
    rw [load_of_lt hslot]
    rfl

/-! ### One cell is enough -/

/-- Whatever a program does once it has filled its only cell. -/
theorem covered_of_filled (p : Program Unit Value) : p.Covered {()} := by
  induction p with
  | done | abort => trivial
  | stage c v next ih | store c v next ih =>
    change next.Covered (insert c {()})
    rwa [Set.insert_eq_of_mem (Set.mem_singleton c)]
  | eval call next ih => exact ⟨fun c _ => Set.mem_singleton c, ih⟩

theorem covered_stage (v : Value) (p : Program Unit Value) : (Program.stage () v p).Covered ∅ := by
  change p.Covered (insert () ∅)
  rw [insert_empty_eq]
  exact covered_of_filled p

theorem covered_ite {v : Value} {p : Program Unit Value} (c : Prop) [Decidable c] :
    (if c then .done else Program.stage () v p).Covered ∅ := by
  split
  · trivial
  · exact covered_stage v p

theorem TextTarget.determined (target : TextTarget) : Determined target.fuzzTargetRun := by
  rintro (_ | ⟨slot, text⟩)
  · refine ⟨.done, trivial, fun stack => ?_⟩
    rw [fuzzTargetRun, refused_eq]
    rfl
  · obtain ⟨call, -, hrun⟩ := target.fuzzTargetRun_eq slot text
    exact ⟨_, covered_ite _, hrun⟩

theorem WholeTarget.determined (target : WholeTarget) : Determined target.fuzzTargetRun :=
  fun data => ⟨_, covered_ite _, target.fuzzTargetRun_eq data⟩

theorem FileTarget.determined (target : FileTarget) : Determined target.fuzzTargetRun := by
  rintro (_ | ⟨slot, payload⟩)
  · exact ⟨.done, trivial, fun _ => rfl⟩
  · obtain ⟨call, -, hrun⟩ := target.fuzzTargetRun_eq slot payload
    exact ⟨_, covered_ite _, hrun⟩

end ROssFuzz.TextTargets
