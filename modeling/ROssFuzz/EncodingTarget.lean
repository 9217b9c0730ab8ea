import ROssFuzz.TextTargets

/-!
# The encoding target

Its calls read the input as a raw vector in a list, or as one of three strings that have the
same bytes and other marks; `inputs` says which. Only the strings cannot carry a NUL.
-/

namespace ROssFuzz.EncodingTarget
open CheckedOperations CStrings HarnessInputs SortLines StagedCalls

/-- `FUZZ_MAX_INPUT`. -/
def fuzzMaxInput : ℕ := 1024 * 64

/-- `N_CALLS`. -/
def nCalls : ℕ := 28

/-- `IN_RAW` to `IN_LATIN1`. -/
inductive In | raw | str | utf8 | latin1 deriving DecidableEq

/-- `xList` is the element of the list. -/
inductive Cell | xList | xStr | xUtf8 | xLatin1 deriving DecidableEq

/-- The vector that an input of the kind fills. -/
def In.cell : In → Cell
  | .raw => .xList
  | .str => .xStr
  | .utf8 => .xUtf8
  | .latin1 => .xLatin1

section Calls

def xList : Call Cell Value := cell .xList
def xStr : Call Cell Value := cell .xStr
def xUtf8 : Call Cell Value := cell .xUtf8
def xLatin1 : Call Cell Value := cell .xLatin1
def subByte : Call Cell Value := mkString "byte"
def subUnicode : Call Cell Value := mkString "Unicode"
def subC99 : Call Cell Value := mkString "c99"
def subEmpty : Call Cell Value := mkString ""
def subNa : Call Cell Value := value .naString
def subQm : Call Cell Value := mkString "?"
def trueVal : Call Cell Value := value (.logical true)
def falseVal : Call Cell Value := value (.logical false)

/-- Every argument is named; `extra` is `mark` or `toRaw`. -/
def iconvCall (x : Call Cell Value) (from_ to_ : String) (sub : Call Cell Value)
    (extra : Option (String × Call Cell Value)) : Call Cell Value :=
  let named := fun call : Call Cell Value =>
    ((call.setTag "from" 2).setTag "to" 3).setTag "sub" 4
  match extra with
  | none => named (lang [install "iconv", x, mkString from_, mkString to_, sub])
  | some (extraName, extra) =>
      (named (lang [install "iconv", x, mkString from_, mkString to_, sub, extra])).setTag
        extraName 5

/-- `from` and `to` of the original shape. -/
def rawEncodings : List (String × String) :=
  [("UTF-8", "UTF-8"), ("latin1", "UTF-8"), ("CP1252", "UTF-8"), ("UTF-16LE", "UTF-8"),
    ("UTF-16BE", "UTF-8"), ("", "ASCII//TRANSLIT")]

/-- `calls[k]` and `inputs[k]`. -/
def slots : List (Call Cell Value × In) :=
  (rawEncodings.map fun (from_, to_) =>
    (iconvCall xList from_ to_ subByte (some ("toRaw", trueVal)), .raw)) ++
  [(iconvCall xStr "UTF-8" "latin1" subByte none, .str),
    (iconvCall xStr "UTF-8" "ASCII" subUnicode none, .str),
    (iconvCall xStr "UTF-8" "ASCII" subC99 none, .str),
    (iconvCall xStr "UTF-8" "UTF-16LE" subByte (some ("toRaw", trueVal)), .str),
    (iconvCall xStr "UTF-8" "latin1" subNa none, .str),
    (iconvCall xStr "UTF-8" "ASCII" subEmpty none, .str),
    (iconvCall xUtf8 "" "latin1" subQm (some ("mark", trueVal)), .utf8),
    (iconvCall xLatin1 "" "UTF-8" subByte (some ("mark", trueVal)), .latin1),
    (iconvCall xUtf8 "" "ASCII//TRANSLIT" subByte none, .utf8),
    (iconvCall xStr "UTF-8" "UTF-8" subUnicode none, .str),
    (iconvCall xLatin1 "latin1" "UTF-8" subByte (some ("mark", falseVal)), .latin1),
    (lang [install "enc2utf8", xLatin1], .latin1),
    (lang [install "enc2native", xUtf8], .utf8),
    (lang [install "validUTF8", xStr], .str),
    (lang [install "validEnc", xUtf8], .utf8),
    (lang [install "enc2utf8", lang [install "Encoding<-", xStr, mkString "latin1"]], .str),
    (iconvCall xList "UTF-16" "UTF-8" subByte none, .raw),
    (iconvCall xList "UTF-32" "UTF-8" subByte none, .raw),
    (iconvCall xList "UTF-7" "UTF-8" subByte none, .raw),
    (iconvCall xList "ISO-2022-JP" "UTF-8" subByte none, .raw),
    (iconvCall xList "GB18030" "UTF-8" subByte none, .raw),
    (iconvCall xList "UTF-8" "UTF-16" subByte (some ("toRaw", trueVal)), .raw)]

end Calls

def fuzzTargetRun (input : Input) : Except Stop (Program Cell Value) := do
  if input.data.length < 2 ∨ fuzzMaxInput < input.data.length then .ok .done
  else
    let (call, kind) ← load slots ((← load input.data 0).toNat % nCalls)
    let eval := Program.eval call fun _ => .done
    if kind = .raw then .ok (.stage .xList (.raw (input.data.drop 1)) eval)
    else if (← memchr input.data 1 0 (input.data.length - 1)).isSome then .ok .done
    else
      let text ← mkChar (← copyIn input fuzzMaxInput 1) 0
      .ok <| match kind with
        | .utf8 => .stage .xUtf8 (.string .utf8 text) eval
        | .latin1 => .stage .xLatin1 (.string .latin1 text) eval
        | _ => .stage .xStr (.string .native text) eval

/-- What the vector is filled with. -/
def In.content : In → Bytes → Value
  | .raw, payload => .raw payload
  | .str, payload => .string .native payload
  | .utf8, payload => .string .utf8 payload
  | .latin1, payload => .string .latin1 payload

/-- A raw vector takes any payload, a string one without NUL. -/
theorem fuzzTargetRun_eq (slot : UInt8) (payload : Bytes) :
    ∃ call kind, slots[slot.toNat % nCalls]? = some (call, kind) ∧
      ∀ stack, fuzzTargetRun ⟨slot :: payload, stack⟩ = .ok
      (if payload = [] ∨ fuzzMaxInput < payload.length + 1 ∨ kind ≠ .raw ∧ 0 ∈ payload then .done
        else .stage kind.cell (kind.content payload) (.eval call fun _ => .done)) := by
  have hslot : slot.toNat % nCalls < slots.length := Nat.mod_lt _ (by decide)
  obtain ⟨call, kind, hload⟩ : ∃ call kind, load slots (slot.toNat % nCalls) = .ok (call, kind) :=
    ⟨_, _, load_of_lt hslot⟩
  refine ⟨call, kind, load_eq_ok_iff.mp hload, fun stack => ?_⟩
  generalize hinput : (⟨slot :: payload, stack⟩ : Input) = input
  have hdata : input.data = slot :: payload := by rw [← hinput]
  have hbyte : load (slot :: payload) 0 = .ok slot := rfl
  rw [fuzzTargetRun, hdata, if_congr (or_congr_left length_cons_lt_two) rfl rfl]
  by_cases h : payload = [] ∨ fuzzMaxInput < (slot :: payload).length
  · rw [if_pos h, if_pos]
    simp only [List.length_cons] at h
    tauto
  · have hfits : ¬ (payload = [] ∨ fuzzMaxInput < payload.length + 1) := h
    rw [if_neg h]
    simp only [bind, Except.bind, hbyte, hload]
    by_cases hraw : kind = .raw
    · subst hraw
      rw [if_pos rfl, if_neg (by tauto)]
      rfl
    · have hmemchr : memchr (slot :: payload) 1 0 ((slot :: payload).length - 1) =
          .ok (if 0 ∈ payload then some (1 + payload.idxOf 0) else none) := by
        rw [memchr, if_pos (by simp [Nat.add_comm])]
        simp
      rw [if_neg hraw, hmemchr]
      by_cases hnul : 0 ∈ payload
      · rw [if_pos (show _ ∨ _ ∨ _ ∧ _ from .inr (.inr ⟨hraw, hnul⟩))]
        simp [hnul]
      · obtain ⟨rest, hcopy⟩ := copyIn_eq input fuzzMaxInput 1 (by rw [hdata]; simp at hfits ⊢; omega)
        have hdrop : input.data.drop 1 = payload := by rw [hdata]; rfl
        rw [hdrop] at hcopy
        rw [if_neg (show ¬ (_ ∨ _ ∨ _ ∧ _) by tauto)]
        simp only [hnul, hcopy, mkChar_zero hnul]
        cases kind with
        | raw => exact absurd rfl hraw
        | str | utf8 | latin1 => rfl

/-- `inputs` names the only vector that the slot's call reads. -/
theorem cells_slots : ∀ s ∈ slots, s.1.cells = [s.2.cell] := by decide +kernel

theorem determined : Determined fuzzTargetRun := by
  rintro (_ | ⟨slot, payload⟩)
  · exact ⟨.done, trivial, fun _ => rfl⟩
  · obtain ⟨call, kind, hslot, hrun⟩ := fuzzTargetRun_eq slot payload
    refine ⟨_, ?_, hrun⟩
    split
    · trivial
    · refine ⟨fun c hc => ?_, fun _ => trivial⟩
      rw [cells_slots _ (List.mem_of_getElem? hslot), List.mem_singleton] at hc
      exact Set.mem_insert_iff.mpr (.inl hc)

end ROssFuzz.EncodingTarget
