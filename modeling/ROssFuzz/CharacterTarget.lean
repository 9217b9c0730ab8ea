import ROssFuzz.TextTargets

/-!
# The character target

`fuzz_target_init` builds 34 calls over five vectors, and `needs` says which of these each
call reads. From slot 9 on the input is split at its first newline into an auxiliary string
and the subject.
-/

namespace ROssFuzz.CharacterTarget
open CheckedOperations CStrings HarnessInputs SortLines StagedCalls TextTargets

/-- `FUZZ_MAX_INPUT`. -/
def fuzzMaxInput : ℕ := 1024 * 64

/-- `N_FIXED_CALLS`. -/
def nFixedCalls : ℕ := 9

/-- `N_CALLS`. -/
def nCalls : ℕ := 34

def defaultAux : Bytes := ascii "[ ,;]+"

def needX : ℕ := 0x01
def needXU : ℕ := 0x02
def needXL : ℕ := 0x04
def needAux : ℕ := 0x08
def needAuxU : ℕ := 0x10
/-- `aux` is a regex. -/
def needRegex : ℕ := 0x20
/-- `aux` is a `chartr` spec. -/
def needChartr : ℕ := 0x40

inductive Cell | inputString | inputUtf8 | inputLatin1 | auxString | auxUtf8 deriving DecidableEq

/-- `tagged`. -/
def tagged (call : Call Cell Value) (pos : ℕ) (tag : String) : Call Cell Value := call.setTag tag pos

section Calls

def inputString : Call Cell Value := cell .inputString
def inputUtf8 : Call Cell Value := cell .inputUtf8
def inputLatin1 : Call Cell Value := cell .inputLatin1
def auxString : Call Cell Value := cell .auxString
def auxUtf8 : Call Cell Value := cell .auxUtf8
def trueValue : Call Cell Value := value (.logical true)
def int (n : ℤ) : Call Cell Value := value (.integer n)
def toRaw : Call Cell Value := lang [install "charToRaw", inputString]
def codepoints : Call Cell Value := lang [install "utf8ToInt", inputString]
def scaledBytes : Call Cell Value := lang [install "*", lang [install "as.integer", toRaw], int 4099]

/-- The original shape of the target. -/
def fixedCalls : List (Call Cell Value) :=
  [tagged (lang [install "nchar", inputString, mkString "bytes"]) 2 "type",
    tagged (lang [install "nchar", inputString, mkString "chars"]) 2 "type",
    tagged (lang [install "nchar", inputString, mkString "width"]) 2 "type",
    lang [install "substr", inputString, int 1, int 32],
    lang [install "substring", inputString, int 1, int 32],
    tagged (lang [install "strsplit", inputString, mkString "", trueValue]) 3 "fixed",
    tagged (tagged (tagged (lang [install "encodeString", inputString, mkString "\"",
      mkString "none", trueValue]) 2 "quote") 3 "justify") 4 "na.encode",
    tagged (lang [install "make.names", inputString, trueValue]) 2 "unique",
    tagged (lang [install "rawToChar", toRaw, trueValue]) 2 "multiple"]

/-- `calls[k]` and `needs[k]` from `N_FIXED_CALLS` on. -/
def splitSlots : List (Call Cell Value × ℕ) :=
  [(tagged (tagged (lang [install "strsplit", inputString, auxString, trueValue, trueValue])
      3 "perl") 4 "useBytes", needX ||| needAux ||| needRegex),
    (tagged (lang [install "strsplit", inputString, auxString, trueValue]) 3 "perl",
      needX ||| needAux ||| needRegex),
    (tagged (lang [install "strsplit", inputString, auxString, trueValue]) 3 "fixed",
      needX ||| needAux),
    (tagged (tagged (lang [install "strsplit", inputString, auxString, trueValue, trueValue])
      3 "fixed") 4 "useBytes", needX ||| needAux),
    (tagged (tagged (lang [install "strsplit", inputUtf8, auxUtf8, trueValue, trueValue])
      3 "perl") 4 "useBytes", needXU ||| needAuxU ||| needRegex),
    (tagged (lang [install "strsplit", inputUtf8, auxUtf8, trueValue]) 3 "perl",
      needXU ||| needAuxU ||| needRegex),
    (tagged (lang [install "strsplit", inputUtf8, auxUtf8, trueValue]) 3 "fixed",
      needXU ||| needAuxU),
    (tagged (tagged (lang [install "nchar", inputUtf8, mkString "chars", trueValue]) 2 "type")
      3 "allowNA", needXU),
    (tagged (tagged (lang [install "nchar", inputUtf8, mkString "width", trueValue]) 2 "type")
      3 "allowNA", needXU),
    (tagged (tagged (lang [install "nchar", inputLatin1, mkString "chars", trueValue]) 2 "type")
      3 "allowNA", needXL),
    (lang [install "chartr", auxString, lang [install "toupper", auxString], inputString],
      needX ||| needAux ||| needChartr),
    (lang [install "chartr", auxUtf8, lang [install "toupper", auxUtf8], inputUtf8],
      needXU ||| needAuxU ||| needChartr),
    (lang [install "strtoi", inputString, int 10], needX),
    (lang [install "strtoi", inputString, int 16], needX),
    (lang [install "strtoi", inputString, int 36], needX),
    (lang [install "strtrim", inputUtf8, int 10], needXU),
    (lang [install "toupper", inputUtf8], needXU),
    (lang [install "tolower", inputLatin1], needXL),
    (tagged (lang [install "abbreviate", inputString, int 4]) 2 "minlength", needX),
    (lang [install "substr<-", inputUtf8, int 2, int 10, auxUtf8], needXU ||| needAuxU),
    (lang [install "strrep", inputString, int 3], needX),
    (codepoints, needX),
    (tagged (lang [install "intToUtf8", codepoints, trueValue]) 2 "multiple", needX),
    (lang [install "intToUtf8", scaledBytes], needX),
    (lang [install "substr", inputUtf8, int 2, int 32], needXU)]

def slots : List (Call Cell Value × ℕ) := (fixedCalls.map fun call => (call, needX)) ++ splitSlots

end Calls

/-! ### One input -/

/-- `buffer`, where `aux` points into it, or `DEFAULT_AUX`, and where `subject` does. -/
structure Split where
  buffer : Bytes
  aux : Option ℕ
  subject : ℕ

def split (selected size : ℕ) (buffer : Bytes) : Except Stop Split := do
  if nFixedCalls ≤ selected then
    match ← memchr buffer 0 newline (size - 1) with
    | some nl => .ok ⟨← store buffer nl 0, some 0, nl + 1⟩
    | none => .ok ⟨buffer, none, 0⟩
  else .ok ⟨buffer, none, 0⟩

/-- The memory that `aux` points to. -/
def Split.auxBlock (s : Split) : Bytes :=
  match s.aux with
  | some p => s.buffer.drop p
  | none => defaultAux ++ [0]

/-- A guard that is asked where the slot needs it. -/
def asked (need flag : ℕ) (guard : Guard) (block : Bytes) : Except Stop Bool :=
  if need &&& flag ≠ 0 then guard.asked block else .ok false

def stageIf (need flag : ℕ) (c : Cell) (v : Value) (next : Program Cell Value) :
    Program Cell Value :=
  if need &&& flag ≠ 0 then .stage c v next else next

/-- From the first `fuzz_set_string` on. -/
def stageAll (need : ℕ) (subject aux : Bytes) (call : Call Cell Value) : Program Cell Value :=
  stageIf need needX .inputString (.string .native subject) <|
    stageIf need needXU .inputUtf8 (.string .utf8 subject) <|
    stageIf need needXL .inputLatin1 (.string .latin1 subject) <|
    stageIf need needAux .auxString (.string .native aux) <|
    stageIf need needAuxU .auxUtf8 (.string .utf8 aux) <| .eval call fun _ => .done

def fuzzTargetRun (input : Input) : Except Stop (Program Cell Value) := do
  if ← refused fuzzMaxInput 1 input.data then .ok .done
  else
    let selected := (← load input.data 0).toNat % nCalls
    let (call, need) ← load slots selected
    let s ← split selected input.data.length (← copyIn input fuzzMaxInput 1)
    if ← asked need needRegex .repeatProduct s.auxBlock then .ok .done
    else if ← asked need needChartr .chartrTable s.auxBlock then .ok .done
    else .ok (stageAll need (← mkChar s.buffer s.subject) (← mkChar s.auxBlock 0) call)

/-! ### What it comes to -/

/-- The auxiliary string and the subject of a payload. -/
def splitPayload (selected : ℕ) (payload : Bytes) : Bytes × Bytes :=
  if nFixedCalls ≤ selected ∧ newline ∈ payload then
    (payload.takeWhile (· ≠ newline), (payload.dropWhile (· ≠ newline)).tail)
  else (defaultAux, payload)

theorem splitPayload_newline {selected : ℕ} {before after : Bytes} (hsel : nFixedCalls ≤ selected)
    (h : newline ∉ before) : splitPayload selected (before ++ newline :: after) = (before, after) := by
  have hbefore : ∀ b ∈ before, decide (b ≠ newline) = true := fun b hb =>
    decide_eq_true fun heq => h (heq ▸ hb)
  rw [splitPayload, if_pos ⟨hsel, by simp⟩, List.takeWhile_append_of_pos hbefore,
    List.dropWhile_append_of_pos hbefore]
  simp

theorem splitPayload_whole {selected : ℕ} {payload : Bytes}
    (h : ¬ (nFixedCalls ≤ selected ∧ newline ∈ payload)) :
    splitPayload selected payload = (defaultAux, payload) := if_neg h

/-- No byte of the payload is lost. -/
theorem splitPayload_joined (selected : ℕ) (payload : Bytes) :
    (splitPayload selected payload = (defaultAux, payload) ∧
      ¬ (nFixedCalls ≤ selected ∧ newline ∈ payload)) ∨
    newline ∉ (splitPayload selected payload).1 ∧ payload =
      (splitPayload selected payload).1 ++ newline :: (splitPayload selected payload).2 := by
  by_cases h : nFixedCalls ≤ selected ∧ newline ∈ payload
  · obtain ⟨before, after, rfl, hbefore⟩ := List.eq_append_cons_of_mem h.2
    rw [splitPayload_newline h.1 hbefore]
    exact .inr ⟨hbefore, rfl⟩
  · exact .inl ⟨splitPayload_whole h, h⟩

/-- What the pointers point to. -/
structure Split.Holds (s : Split) (aux subject : Bytes) : Prop where
  aux_block : ∃ rest, s.auxBlock = aux ++ 0 :: rest
  subject_at : ∃ before rest, s.buffer = before ++ subject ++ 0 :: rest ∧ before.length = s.subject
  aux_nonzero : 0 ∉ aux
  subject_nonzero : 0 ∉ subject

private theorem holds_whole {payload : Bytes} (rest : Bytes) (h : 0 ∉ payload) :
    Split.Holds ⟨payload ++ 0 :: rest, none, 0⟩ defaultAux payload :=
  ⟨⟨[], rfl⟩, ⟨[], rest, rfl, rfl⟩, by decide, h⟩

/-- The NUL that replaces the newline splits the one buffer into both strings. -/
theorem split_eq (selected : ℕ) {payload : Bytes} (rest : Bytes) (h : 0 ∉ payload) :
    ∃ s, split selected (payload.length + 1) (payload ++ 0 :: rest) = .ok s ∧
      s.Holds (splitPayload selected payload).1 (splitPayload selected payload).2 := by
  by_cases hsel : nFixedCalls ≤ selected
  · have hmemchr : memchr (payload ++ 0 :: rest) 0 newline (payload.length + 1 - 1) =
        .ok (if newline ∈ payload then some (payload.idxOf newline) else none) := by
      rw [memchr, if_pos (by simp)]
      simp
    rw [split, if_pos hsel, hmemchr]
    by_cases hnl : newline ∈ payload
    · obtain ⟨before, after, rfl, hbefore⟩ := List.eq_append_cons_of_mem hnl
      have hidx : (before ++ newline :: after).idxOf newline = before.length := by
        rw [List.idxOf_append_of_notMem hbefore]
        simp
      obtain ⟨hbefore0, hafter0⟩ : 0 ∉ before ∧ 0 ∉ after := by
        simp only [List.mem_append, List.mem_cons] at h
        tauto
      have hstore : store (before ++ newline :: after ++ 0 :: rest) before.length 0 =
          .ok (before ++ 0 :: (after ++ 0 :: rest)) := by
        rw [store_of_lt (by simp)]
        simp
      rw [if_pos hnl, hidx, splitPayload_newline hsel hbefore]
      change ∃ s, (store (before ++ newline :: after ++ 0 :: rest) before.length 0 >>= _) = _ ∧ _
      rw [hstore]
      refine ⟨_, rfl, ⟨_, rfl⟩, ⟨before ++ [0], rest, ?_, ?_⟩, hbefore0, hafter0⟩
      · simp
      · simp
    · rw [if_neg hnl, splitPayload_whole (by tauto)]
      exact ⟨_, rfl, holds_whole rest h⟩
  · rw [split, if_neg hsel, splitPayload_whole (by tauto)]
    exact ⟨_, rfl, holds_whole rest h⟩

/-- The slot's guard refuses the auxiliary string. -/
def Refuses (need : ℕ) (aux : Bytes) : Prop :=
  need &&& needRegex ≠ 0 ∧ Guard.repeatProduct.refuses aux = true ∨
    need &&& needChartr ≠ 0 ∧ Guard.chartrTable.refuses aux = true

instance (need : ℕ) (aux : Bytes) : Decidable (Refuses need aux) :=
  inferInstanceAs (Decidable (_ ∨ _))

private theorem asked_eq (need flag : ℕ) (guard : Guard) {aux rest : Bytes} (h : 0 ∉ aux) :
    asked need flag guard (aux ++ 0 :: rest) =
      .ok (decide (need &&& flag ≠ 0 ∧ guard.refuses aux = true)) := by
  rw [asked]
  split
  next hneed => rw [guard.asked_eq h]; simp [hneed]
  next hneed => simp [hneed]

theorem fuzzTargetRun_eq (slot : UInt8) (payload : Bytes) :
    ∃ call need, slots[slot.toNat % nCalls]? = some (call, need) ∧
      ∀ stack, fuzzTargetRun ⟨slot :: payload, stack⟩ = .ok
      (if payload = [] ∨ fuzzMaxInput < payload.length + 1 ∨ 0 ∈ payload ∨
          Refuses need (splitPayload (slot.toNat % nCalls) payload).1 then .done
        else stageAll need (splitPayload (slot.toNat % nCalls) payload).2
          (splitPayload (slot.toNat % nCalls) payload).1 call) := by
  have hslot : slot.toNat % nCalls < slots.length := Nat.mod_lt _ (by decide)
  obtain ⟨call, need, hload⟩ : ∃ call need, load slots (slot.toNat % nCalls) = .ok (call, need) :=
    ⟨_, _, load_of_lt hslot⟩
  refine ⟨call, need, load_eq_ok_iff.mp hload, fun stack => ?_⟩
  generalize hinput : (⟨slot :: payload, stack⟩ : Input) = input
  have hdata : input.data = slot :: payload := by rw [← hinput]
  have hrefused : (input.data.length < 1 + 1 ∨ fuzzMaxInput < input.data.length ∨
      0 ∈ input.data.drop 1) ↔ payload = [] ∨ fuzzMaxInput < payload.length + 1 ∨ 0 ∈ payload := by
    rw [hdata]
    exact or_congr length_cons_lt_two Iff.rfl
  rw [fuzzTargetRun, refused_eq]
  by_cases h : payload = [] ∨ fuzzMaxInput < payload.length + 1 ∨ 0 ∈ payload
  · rw [decide_eq_true (hrefused.mpr h), if_pos (by tauto)]
    rfl
  · obtain ⟨hne, hmax, hnonzero⟩ : payload ≠ [] ∧ ¬ fuzzMaxInput < payload.length + 1 ∧
        0 ∉ payload := by tauto
    obtain ⟨rest, hcopy⟩ := copyIn_eq input fuzzMaxInput 1
      (by rw [hdata]; simp; omega)
    have hdrop : input.data.drop 1 = payload := by rw [hdata]; rfl
    have hlength : input.data.length = payload.length + 1 := by rw [hdata]; rfl
    have hbyte : load input.data 0 = .ok slot := by rw [hdata]; rfl
    obtain ⟨s, hsplit, hholds⟩ := split_eq (slot.toNat % nCalls) rest hnonzero
    obtain ⟨auxRest, haux⟩ := hholds.aux_block
    obtain ⟨before, subjectRest, hsubject, hat⟩ := hholds.subject_at
    have hmkAux := @mkChar_zero _ auxRest hholds.aux_nonzero
    have hmkSubject := @mkChar_eq before _ subjectRest hholds.subject_nonzero
    rw [hdrop] at hcopy
    rw [← hsubject, hat] at hmkSubject
    rw [decide_eq_false (mt hrefused.mp h)]
    simp only [bind, Except.bind, hbyte, hload, hcopy, hlength, hsplit, haux,
      asked_eq _ _ _ hholds.aux_nonzero, hmkAux, hmkSubject]
    generalize (splitPayload (slot.toNat % nCalls) payload).1 = aux
    simp only [hne, hmax, hnonzero, false_or]
    by_cases hregex : need &&& needRegex ≠ 0 ∧ Guard.repeatProduct.refuses aux = true
    · simp [hregex, Refuses]
    · by_cases hchartr : need &&& needChartr ≠ 0 ∧ Guard.chartrTable.refuses aux = true
      · simp [hregex, hchartr, Refuses]
      · simp [hregex, hchartr, Refuses]

/-- The vectors that are filled for a slot with these needs. -/
def filled (need : ℕ) : List Cell :=
  [(needX, Cell.inputString), (needXU, .inputUtf8), (needXL, .inputLatin1), (needAux, .auxString),
    (needAuxU, .auxUtf8)].filterMap fun (flag, c) => if need &&& flag ≠ 0 then some c else none

/-- `needs` names exactly the vectors that the slot's call reads. -/
theorem needs_exact : ∀ s ∈ slots, ∀ c, c ∈ s.1.cells ↔ c ∈ filled s.2 := by
  have hall : ∀ s ∈ slots, s.1.cells ⊆ filled s.2 ∧ filled s.2 ⊆ s.1.cells := by decide +kernel
  exact fun s hs c => ⟨fun h => (hall s hs).1 h, fun h => (hall s hs).2 h⟩

/-- The vectors as an input fills them. -/
def given (subject aux : Bytes) : Cells Cell Value
  | .inputString => .string .native subject
  | .inputUtf8 => .string .utf8 subject
  | .inputLatin1 => .string .latin1 subject
  | .auxString => .string .native aux
  | .auxUtf8 => .string .utf8 aux

theorem foldr_stageIf (need : ℕ) (v : Cells Cell Value) (flags : List (ℕ × Cell))
    (next : Program Cell Value) :
    flags.foldr (fun (flag, c) p => stageIf need flag c (v c) p) next =
      .stages v (flags.filterMap fun (flag, c) => if need &&& flag ≠ 0 then some c else none)
        next := by
  induction flags with
  | nil => rfl
  | cons f flags ih =>
    obtain ⟨flag, c⟩ := f
    rw [List.foldr_cons, ih]
    by_cases hneed : need &&& flag ≠ 0 <;> simp [stageIf, hneed, Program.stages]

theorem stageAll_eq (need : ℕ) (subject aux : Bytes) (call : Call Cell Value) :
    stageAll need subject aux call =
      .stages (given subject aux) (filled need) (.eval call fun _ => .done) :=
  foldr_stageIf need (given subject aux) [(needX, .inputString), (needXU, .inputUtf8),
    (needXL, .inputLatin1), (needAux, .auxString), (needAuxU, .auxUtf8)] (.eval call fun _ => .done)

theorem stageAll_covered {need : ℕ} {subject aux : Bytes} {call : Call Cell Value}
    (h : ∀ c ∈ call.cells, c ∈ filled need) : (stageAll need subject aux call).Covered ∅ := by
  rw [stageAll_eq]
  exact Program.stages_covered ⟨fun c hc => .inl (h c hc), fun _ => trivial⟩

theorem determined : Determined fuzzTargetRun := by
  rintro (_ | ⟨slot, payload⟩)
  · refine ⟨.done, trivial, fun stack => ?_⟩
    rw [fuzzTargetRun, refused_eq]
    rfl
  · obtain ⟨call, need, hslot, hrun⟩ := fuzzTargetRun_eq slot payload
    refine ⟨_, ?_, hrun⟩
    split
    · trivial
    · exact stageAll_covered fun c => (needs_exact _ (List.mem_of_getElem? hslot) c).mp

/-! ### What R is given -/

/-- An input as the target's description has it. -/
structure Accepted where
  call : Call Cell Value
  need : ℕ
  aux : Bytes
  subject : Bytes

def accepted : Bytes → Option Accepted
  | [] => none
  | slot :: payload => do
      let (call, need) ← slots[slot.toNat % nCalls]?
      let (aux, subject) := splitPayload (slot.toNat % nCalls) payload
      if payload = [] ∨ fuzzMaxInput < payload.length + 1 ∨ 0 ∈ payload ∨ Refuses need aux then none
      else some ⟨call, need, aux, subject⟩

/-- Whatever was in the vectors, and on the stack. An input that the target refuses gives R
nothing. One that it accepts gives R one call, however that ends, if R grants the vectors that it
needs, and else nothing: the call of the input's slot, where each vector it reads holds a part of
this input, of which no byte is lost. -/
theorem character_given (data : Bytes) :
    ∃ p, (∀ stack, fuzzTargetRun ⟨data, stack⟩ = .ok p) ∧
      (accepted data = none → ∀ replies cells, (p.run replies cells).1 = ⟨[], false⟩) ∧
      ∀ a ∈ accepted data,
        (∀ replies cells, (∀ reply ∈ replies.take (filled a.need).length, reply.writes = []) →
          (p.run replies cells).1.calls =
            if AllGranted (filled a.need).length replies then
              [a.call.contents (given a.subject a.aux)]
            else []) ∧
        ∃ slot payload, data = slot :: payload ∧
          slots[slot.toNat % nCalls]? = some (a.call, a.need) ∧ ¬ Refuses a.need a.aux ∧
          (a.aux = defaultAux ∧ a.subject = payload ∨
            newline ∉ a.aux ∧ payload = a.aux ++ newline :: a.subject) := by
  cases data with
  | nil =>
    refine ⟨.done, fun stack => ?_, fun _ _ _ => rfl, by simp [accepted]⟩
    rw [fuzzTargetRun, refused_eq]
    rfl
  | cons slot payload =>
    obtain ⟨call, need, hslot, hrun⟩ := fuzzTargetRun_eq slot payload
    have hneed := needs_exact _ (List.mem_of_getElem? hslot)
    have haccepted : accepted (slot :: payload) =
        if payload = [] ∨ fuzzMaxInput < payload.length + 1 ∨ 0 ∈ payload ∨
          Refuses need (splitPayload (slot.toNat % nCalls) payload).1 then none
        else some ⟨call, need, (splitPayload (slot.toNat % nCalls) payload).1,
          (splitPayload (slot.toNat % nCalls) payload).2⟩ := by
      rw [accepted, hslot]
      rfl
    refine ⟨_, hrun, ?_⟩
    rw [haccepted]
    split
    next h => exact ⟨fun _ _ _ => rfl, by simp⟩
    next h =>
      refine ⟨by simp, fun a ha => ?_⟩
      obtain rfl := Option.some.inj ha
      refine ⟨fun replies cells hwrites => ?_, slot, payload, rfl, hslot, by tauto, ?_⟩
      · rw [stageAll_eq]
        obtain ⟨cells', hfilled, -, hcalls⟩ :=
          Program.run_stages (given _ _) (filled need) (.eval call fun _ => .done) hwrites cells
        have hcontents : call.contents cells' = call.contents (given _ _) :=
          Call.contents_congr fun c hc => hfilled c ((hneed c).mp hc)
        rw [hcalls, Program.run_eval_done, hcontents]
      · rcases splitPayload_joined (slot.toNat % nCalls) payload with ⟨hwhole, -⟩ | hjoined
        · exact .inl ⟨by rw [hwhole], by rw [hwhole]⟩
        · exact .inr hjoined

/-- `strsplit(x, "b")` of `"a"`, with an error in the call, and more replies after it. -/
theorem character_given_error : ∃ (p : Program Cell Value) (a : Accepted),
    (∀ stack, fuzzTargetRun ⟨[9, 0x62, 0x0a, 0x61], stack⟩ = .ok p) ∧
      a.aux = ascii "b" ∧ a.subject = ascii "a" ∧
      (p.run [⟨some .null, []⟩, ⟨some .null, []⟩, ⟨none, [(.auxString, .null)]⟩, ⟨none, []⟩]
        fun _ => .null).1.calls = [a.call.contents (given a.subject a.aux)] := by
  obtain ⟨p, hrun, -, hgiven⟩ := character_given [9, 0x62, 0x0a, 0x61]
  have haccepted : (accepted [9, 0x62, 0x0a, 0x61]).isSome = true := by decide +kernel
  obtain ⟨a, ha⟩ := Option.isSome_iff_exists.mp haccepted
  have hparts : (accepted [9, 0x62, 0x0a, 0x61]).map (fun a => (a.aux, a.subject, filled a.need)) =
      some (ascii "b", ascii "a", [.inputString, .auxString]) := by decide +kernel
  rw [ha, Option.map_some, Option.some_inj, Prod.mk.injEq, Prod.mk.injEq] at hparts
  obtain ⟨haux, hsubject, hfilled⟩ := hparts
  refine ⟨p, a, hrun, haux, hsubject, ?_⟩
  have hcalls := (hgiven a ha).1 [⟨some .null, []⟩, ⟨some .null, []⟩,
    ⟨none, [(.auxString, .null)]⟩, ⟨none, []⟩] (fun _ => .null)
  rw [hfilled] at hcalls
  exact (hcalls (by simp)).trans (if_pos (by decide))

end ROssFuzz.CharacterTarget
