import ROssFuzz.TextTargets

/-!
# The targets with a cell for each slot

Here a slot's call has an argument of its own, which `fuzz_set_raw_arg` or `SETCADR`
replaces: `decompress`, `unserialize`, `connections`, `sort` and `io`. The calls of `format`
share a string and four parameters.
-/

namespace ROssFuzz.SlotTargets
open CheckedOperations CStrings HarnessInputs StagedCalls TextTargets

/-- The slot's call reads the slot's argument and no other. -/
def Own (calls : List (Call ℕ Value)) : Prop :=
  ∀ (i : ℕ) (h : i < calls.length), ∀ c ∈ calls[i].cells, c = i

instance (calls : List (Call ℕ Value)) : Decidable (Own calls) :=
  inferInstanceAs (Decidable (∀ (i : ℕ) (h : i < calls.length), ∀ c ∈ calls[i].cells, c = i))

/-- `decompress.c` and `unserialize.c`: where the slot is in the input, and where the payload
begins. -/
structure RawTarget where
  fuzzMaxInput : ℕ
  calls : List (Call ℕ Value)
  own : Own calls
  selector : Bytes → ℕ
  selector_lt : ∀ data, 2 ≤ data.length → selector data < data.length
  slot : UInt8 → ℕ
  slot_lt : ∀ b, slot b < calls.length
  start : ℕ

def RawTarget.fuzzTargetRun (target : RawTarget) (input : Input) :
    Except Stop (Program ℕ Value) := do
  if input.data.length < 2 ∨ target.fuzzMaxInput < input.data.length then .ok .done
  else
    let selected := target.slot (← load input.data (target.selector input.data))
    let call ← load target.calls selected
    .ok (.stage selected (.raw (input.data.drop target.start)) (.eval call fun _ => .done))

namespace Decompress
def calls : List (Call ℕ Value) := ["gzip", "bzip2", "xz", "unknown"].mapIdx fun i type =>
  (lang [install "memDecompress", cell i, mkString type]).setTag "type" 2

def target : RawTarget where
  fuzzMaxInput := 1024 * 64
  calls := calls
  own := by decide +kernel
  selector _ := 0
  selector_lt _ h := by omega
  slot b := (b &&& 0x03).toNat
  slot_lt b := by
    have hmask : (b &&& 0x03).toNat = b.toNat &&& 3 := by simp
    rw [hmask]
    exact Nat.and_le_right.trans_lt (by decide)
  start := 1
end Decompress

namespace Unserialize
def calls : List (Call ℕ Value) := (List.range 4).map fun i =>
  lang [value (.closure "sources" i), cell i]

/-- The last byte picks the route and stays in the payload. -/
def target : RawTarget where
  fuzzMaxInput := 1024 * 64
  calls := calls
  own := by decide +kernel
  selector data := data.length - 1
  selector_lt _ h := by omega
  slot b := b.toNat % 4
  slot_lt _ := Nat.mod_lt _ (by decide)
  start := 0
end Unserialize

theorem RawTarget.determined (target : RawTarget) : Determined target.fuzzTargetRun := by
  intro data
  by_cases h : data.length < 2 ∨ target.fuzzMaxInput < data.length
  · exact ⟨.done, trivial, fun stack => if_pos h⟩
  · have hselector := target.selector_lt data (by omega)
    have hslot := target.slot_lt data[target.selector data]
    refine ⟨.stage (target.slot data[target.selector data]) (.raw (data.drop target.start))
      (.eval target.calls[target.slot data[target.selector data]] fun _ => .done),
      ⟨fun c hc => Set.mem_insert_iff.mpr (.inl (target.own _ hslot c hc)), fun _ => trivial⟩,
      fun stack => ?_⟩
    rw [fuzzTargetRun, if_neg h]
    change (load data (target.selector data) >>= _) = _
    rw [load_of_lt hselector]
    change (load target.calls (target.slot data[target.selector data]) >>= _) = _
    rw [load_of_lt hslot]
    rfl

/-! ### Connections -/

namespace Connections

inductive Cell | scratch | argument (slot : ℕ) deriving DecidableEq

def encodings : List String :=
  ["", "UTF-8", "latin1", "UTF-16LE", "UTF-16BE", "UTF-16", "UCS-2LE", "CP1252", "UTF-8-BOM"]

def openers : List String := ["gzfile", "bzfile", "xzfile", "zstdfile"]

/-- A wrapper's call, but for its first argument; the path is the scratch file. -/
def wrapped (wrapper : String) (args : List (Call Cell Value)) (x : Call Cell Value) :
    Call Cell Value :=
  lang (value (.closure wrapper 0) :: x :: cell .scratch :: args)

/-- The slots in the order in which the calls are built. -/
def builders : List (Call Cell Value → Call Cell Value) :=
  (encodings.map fun enc => wrapped "wrapper_lines" [mkString enc, value (.logical false)]) ++
  (encodings.map fun enc => wrapped "wrapper_lines" [mkString enc, value (.logical true)]) ++
  (encodings.map fun enc => wrapped "wrapper_chars" [mkString enc, value (.logical true)]) ++
  (encodings.map fun enc => wrapped "wrapper_chars" [mkString enc, value (.logical false)]) ++
  (encodings.map fun enc => wrapped "wrapper_scan" [mkString enc]) ++
  (encodings.map fun enc => wrapped "wrapper_chunks" [mkString enc]) ++
  (openers.map fun opener => wrapped "wrapper_compressed_bin" [value (.function opener)]) ++
  (openers.map fun opener => wrapped "wrapper_compressed_text" [value (.function opener)]) ++
  [wrapped "wrapper_gzcon" [], wrapped "wrapper_raw" [], wrapped "wrapper_pushback" [],
    wrapped "wrapper_write" []]

def nCalls : ℕ := 6 * 9 + 2 * 4 + 4

def calls : List (Call Cell Value) := builders.mapIdx fun n build => build (cell (.argument n))

def fuzzTargetRun (input : Input) : Except Stop (Program Cell Value) := do
  if input.data.length < 2 ∨ 1024 * 64 < input.data.length then .ok .done
  else
    let selected := (← load input.data 0).toNat % nCalls
    let call ← load calls selected
    .ok (.stage .scratch (.file (input.data.drop 1)) <|
      .stage (.argument selected) (.raw (input.data.drop 1)) <| .eval call fun _ => .done)

theorem cells_builders :
    ∀ build ∈ builders, ∀ c : Cell, (build (cell c)).cells = [c, .scratch] := by
  simp only [builders, List.forall_mem_append, List.forall_mem_map, List.forall_mem_cons]
  refine ⟨⟨⟨⟨⟨⟨⟨⟨?_, ?_⟩, ?_⟩, ?_⟩, ?_⟩, ?_⟩, ?_⟩, ?_⟩, ?_⟩
  on_goal 9 => exact ⟨fun _ => rfl, fun _ => rfl, fun _ => rfl, fun _ => rfl, by simp⟩
  all_goals exact fun _ _ _ => rfl

theorem length_calls : calls.length = nCalls := by
  rw [calls, List.length_mapIdx]
  rfl

theorem cells_calls {i : ℕ} (h : i < calls.length) : calls[i].cells = [.argument i, .scratch] := by
  simp only [calls, List.getElem_mapIdx]
  exact cells_builders _ (List.getElem_mem _) _

theorem determined : Determined fuzzTargetRun := by
  intro data
  by_cases h : data.length < 2 ∨ 1024 * 64 < data.length
  · exact ⟨.done, trivial, fun stack => if_pos h⟩
  · have hdata : 0 < data.length := by omega
    have hslot : data[0].toNat % nCalls < calls.length := by
      rw [length_calls]
      exact Nat.mod_lt _ (by decide)
    refine ⟨.stage .scratch (.file (data.drop 1)) <|
      .stage (.argument (data[0].toNat % nCalls)) (.raw (data.drop 1)) <|
        .eval calls[data[0].toNat % nCalls] fun _ => .done,
      ⟨fun c hc => ?_, fun _ => trivial⟩, fun stack => ?_⟩
    · rw [cells_calls hslot] at hc
      simpa [or_comm] using hc
    · rw [fuzzTargetRun, if_neg h]
      change (load data 0 >>= _) = _
      rw [load_of_lt hdata]
      change (load calls (data[0].toNat % nCalls) >>= _) = _
      rw [load_of_lt hslot]
      rfl

end Connections

/-! ### Lines -/

namespace Sorting
open SortLines (countLines cutLines nCalls)

def calls : List (Call ℕ Value) := (List.range nCalls).map fun i =>
  lang [value (.closure "sources" i), cell i]

/-- The vector of `set_lines`; a refused allocation leaves it before any slot is set. -/
def lines (data : Bytes) : Except Stop (List Bytes) :=
  cutLines (fun _ => true) data (countLines 1 data) (countLines 1 data) 0 0
    (.replicate (countLines 1 data) [])

/-- `SETCADR` for every slot from `i` on, `n` of them. -/
def setCadrs (lines : List Bytes) (next : Program ℕ Value) : ℕ → ℕ → Program ℕ Value
  | 0, _ => next
  | n + 1, i => .store i (.strings lines) (setCadrs lines next n (i + 1))

def fuzzTargetRun (input : Input) : Except Stop (Program ℕ Value) := do
  if ← refused (1024 * 16) 1 input.data then .ok .done
  else
    let lines ← lines (input.data.drop 1)
    let selected := (← load input.data 0).toNat % nCalls
    let call ← load calls selected
    .ok (.stage 0 (.strings lines) (setCadrs lines (.eval call fun _ => .done) (nCalls - 1) 1))

theorem cells_calls {i : ℕ} (h : i < calls.length) : calls[i].cells = [i] := by
  simp only [calls, List.getElem_map, List.getElem_range]
  rfl

theorem lines_eq (data : Bytes) (hnonzero : 0 ∉ data) (hlen : (data.length : ℤ) ≤ intMax) :
    ∃ xs, lines data = .ok xs := by
  have hmax : 1 ≤ SortLines.fuzzMaxLines := by decide
  obtain ⟨k, hk⟩ : ∃ k, countLines 1 data = k + 1 ∧ k ≤ data.count SortLines.newline := by
    rw [SortLines.countLines_eq 1 data hmax]
    exact ⟨min (1 + data.count SortLines.newline) SortLines.fuzzMaxLines - 1, by omega⟩
  have hcut : ∃ xs, cutLines (fun _ => true) data (k + 1) (k + 1) 0 0 (.replicate (k + 1) []) =
      .ok xs := by
    refine ⟨_, (SortLines.cutLines_eq hlen k 0 0 [] (Nat.zero_le _) rfl (Nat.zero_add _) ?_).trans
      (if_pos ⟨?_, fun _ _ => rfl⟩)⟩
    · rw [List.drop_zero]
      exact hk.2
    · rwa [List.drop_zero]
  rwa [lines, hk.1]

theorem setCadrs_covered {lines : List Bytes} {next : Program ℕ Value} {m : ℕ}
    (h : next.Covered {i | i < m}) (n : ℕ) {i : ℕ} (hm : i + n = m) :
    (setCadrs lines next n i).Covered {j | j < i} := by
  induction n generalizing i with
  | zero =>
    obtain rfl : i = m := by omega
    exact h
  | succ n ih =>
    have hset : insert i {j | j < i} = {j | j < i + 1} := by
      ext j
      simp only [Set.mem_insert_iff, Set.mem_ofPred_eq]
      omega
    change (setCadrs lines next n (i + 1)).Covered (insert i {j | j < i})
    rw [hset]
    exact ih (by omega)

theorem determined : Determined fuzzTargetRun := by
  intro data
  by_cases h : data.length < 1 + 1 ∨ 1024 * 16 < data.length ∨ 0 ∈ data.drop 1
  · refine ⟨.done, trivial, fun stack => ?_⟩
    rw [fuzzTargetRun, refused_eq, decide_eq_true h]
    rfl
  · have hdata : 0 < data.length := by omega
    have hmax : ((data.drop 1).length : ℤ) ≤ intMax := by
      rw [List.length_drop, intMax]
      omega
    obtain ⟨xs, hlines⟩ := lines_eq (data.drop 1) (by tauto) hmax
    have hslot : data[0].toNat % nCalls < calls.length := by
      rw [calls, List.length_map, List.length_range]
      exact Nat.mod_lt _ (by decide)
    refine ⟨.stage 0 (.strings xs) (setCadrs xs
      (.eval calls[data[0].toNat % nCalls] fun _ => .done) (nCalls - 1) 1), ?_, fun stack => ?_⟩
    · have hzero : insert 0 (∅ : Set ℕ) = {j | j < 1} := by
        ext j
        simp
      change (setCadrs xs _ (nCalls - 1) 1).Covered (insert 0 ∅)
      rw [hzero]
      have heval : (Program.eval calls[data[0].toNat % nCalls] fun _ => .done).Covered
          {j | j < nCalls} := by
        refine ⟨fun c hc => ?_, fun _ => trivial⟩
        rw [cells_calls hslot, List.mem_singleton] at hc
        subst hc
        exact Nat.mod_lt _ (by decide)
      exact setCadrs_covered heval _ (by decide)
    · rw [fuzzTargetRun, refused_eq, decide_eq_false h]
      change (lines (data.drop 1) >>= _) = _
      rw [hlines]
      change (load data 0 >>= _) = _
      rw [load_of_lt hdata]
      change (load calls (data[0].toNat % nCalls) >>= _) = _
      rw [load_of_lt hslot]
      rfl

end Sorting
/-! ### Round trips -/

namespace Io

/-- The first argument of each slot's calls. -/
inductive Cell | read (i : ℕ) | write (i : ℕ) | wrap (i : ℕ) deriving DecidableEq

def nBin : ℕ := 8

def nWrap : ℕ := 10

def nCalls : ℕ := nBin + nWrap

/-- `what`, `sizes` and `endian` of a typed slot. -/
def typed : List (Value × ℤ × String) :=
  [(.raw [], 1, "little"), (.integer 0, 1, "big"), (.integer 0, 4, "little"), (.real 0 0, 4, "big"),
    (.real 0 0, 8, "little"), (.complexZero, 16, "big"), (.string .native [], 1, "little"),
    (.logical false, 4, "little")]

def readCalls : List (Call Cell Value) := typed.mapIdx fun i (what, size, endian) =>
  ((lang [install "readBin", cell (.read i), value what, value (.integer 16384),
    value (.integer size), mkString endian]).setTag "size" 4).setTag "endian" 5

def writeCalls : List (Call Cell Value) := typed.mapIdx fun i (_, size, endian) =>
  ((lang [install "writeBin", cell (.write i), value (.raw []), value (.integer size),
    mkString endian]).setTag "size" 3).setTag "endian" 4

def wrapCalls : List (Call Cell Value) := (List.range nWrap).map fun i =>
  lang [value (.closure "wrap_sources" i), cell (.wrap i)]

/-- `run_io`: what is read is written and read again, and has to be identical. -/
def runIo (identical : Value → Value → Bool) (selected : ℕ) (raw : Bytes)
    (read write : Call Cell Value) : Program Cell Value :=
  .stage (.read selected) (.raw raw) <| .eval read fun
    | none => .done
    | some v => .store (.write selected) v <| .eval write fun
      | none => .done
      | some encoded => .store (.read selected) encoded <| .eval read fun
        | none => .done
        | some roundtrip => if identical v roundtrip then .done else .abort

/-- `identical` is `R_compute_identical`. -/
def fuzzTargetRun (identical : Value → Value → Bool) (input : Input) :
    Except Stop (Program Cell Value) := do
  if input.data.length < 2 ∨ 1024 * 64 < input.data.length then .ok .done
  else
    let selected := (← load input.data 0).toNat % nCalls
    if selected < nBin then
      let read ← load readCalls selected
      let write ← load writeCalls selected
      .ok (runIo identical selected (input.data.drop 1) read write)
    else
      let call ← load wrapCalls (selected - nBin)
      .ok (.stage (.wrap (selected - nBin)) (.raw (input.data.drop 1)) (.eval call fun _ => .done))

theorem cells_readCalls {i : ℕ} (h : i < readCalls.length) : readCalls[i].cells = [.read i] := by
  simp only [readCalls, List.getElem_mapIdx]
  rfl

theorem cells_writeCalls {i : ℕ} (h : i < writeCalls.length) : writeCalls[i].cells = [.write i] := by
  simp only [writeCalls, List.getElem_mapIdx]
  rfl

theorem cells_wrapCalls {i : ℕ} (h : i < wrapCalls.length) : wrapCalls[i].cells = [.wrap i] := by
  simp only [wrapCalls, List.getElem_map, List.getElem_range]
  rfl

theorem runIo_covered (identical : Value → Value → Bool) (selected : ℕ) (raw : Bytes)
    {read write : Call Cell Value} (hread : read.cells = [.read selected])
    (hwrite : write.cells = [.write selected]) :
    (runIo identical selected raw read write).Covered ∅ := by
  refine ⟨by simp [hread], fun result => ?_⟩
  cases result with
  | none => trivial
  | some v =>
    refine ⟨by simp [hwrite], fun encoded => ?_⟩
    cases encoded with
    | none => trivial
    | some encoded =>
      refine ⟨by simp [hread], fun roundtrip => ?_⟩
      cases roundtrip with
      | none => trivial
      | some roundtrip =>
        change Program.Covered _ (if identical v roundtrip then .done else .abort)
        split <;> trivial

theorem determined (identical : Value → Value → Bool) : Determined (fuzzTargetRun identical) := by
  intro data
  by_cases h : data.length < 2 ∨ 1024 * 64 < data.length
  · exact ⟨.done, trivial, fun stack => if_pos h⟩
  · have hdata : 0 < data.length := by omega
    have hrun : ∀ stack, fuzzTargetRun identical ⟨data, stack⟩ = _ := fun stack => if_neg h
    have hselected : data[0].toNat % nCalls < nCalls := Nat.mod_lt _ (by decide)
    simp only [bind, Except.bind, load_of_lt hdata] at hrun
    generalize data[0].toNat % nCalls = selected at hselected hrun
    by_cases hbin : selected < nBin
    · have hread : selected < readCalls.length := hbin
      have hwrite : selected < writeCalls.length := hbin
      simp only [if_pos hbin, load_of_lt hread, load_of_lt hwrite] at hrun
      exact ⟨_, runIo_covered identical _ _ (cells_readCalls hread) (cells_writeCalls hwrite), hrun⟩
    · have hwrap : selected - nBin < wrapCalls.length := by
        rw [wrapCalls, List.length_map, List.length_range]
        simp only [nCalls] at hselected
        omega
      simp only [if_neg hbin, load_of_lt hwrap] at hrun
      refine ⟨.stage (.wrap (selected - nBin)) (.raw (data.drop 1))
        (.eval wrapCalls[selected - nBin] fun _ => .done),
        ⟨fun c hc => ?_, fun _ => trivial⟩, hrun⟩
      rw [cells_wrapCalls hwrap, List.mem_singleton] at hc
      exact Set.mem_insert_iff.mpr (.inl hc)

end Io

/-! ### Parameters -/

namespace Format

inductive Cell | inputString | digits | width | nsmall | flag deriving DecidableEq

def header : ℕ := 5

def nCalls : ℕ := 24

def flagValues : List String := ["", "-", "0", "+", " ", "#", "0-", "+#0"]

def calls : List (Call Cell Value) := closures nCalls
  [cell .inputString, cell .digits, cell .width, cell .nsmall, cell .flag]

def fuzzTargetRun (input : Input) : Except Stop (Program Cell Value) := do
  if ← refused (1024 * 16) header input.data then .ok .done
  else
    let digits := 1 + (← load input.data 1).toNat % 22
    let width := (← load input.data 2).toNat % 41
    let nsmall := (← load input.data 3).toNat % 21
    let flag ← load flagValues ((← load input.data 4).toNat % 8)
    let buffer ← copyIn input (1024 * 16) header
    let text ← mkChar buffer 0
    let call ← load calls ((← load input.data 0).toNat % nCalls)
    .ok (.store .digits (.integer digits) <| .store .width (.integer width) <|
      .store .nsmall (.integer nsmall) <| .store .flag (.string .native (ascii flag)) <|
      .stage .inputString (.string .native text) <| .eval call fun _ => .done)

theorem cells_calls {i : ℕ} (h : i < calls.length) :
    calls[i].cells = [.inputString, .digits, .width, .nsmall, .flag] := by
  simp only [calls, closures, List.getElem_map, List.getElem_range]
  rfl

theorem determined : Determined fuzzTargetRun := by
  intro data
  by_cases h : data.length < header + 1 ∨ 1024 * 16 < data.length ∨ 0 ∈ data.drop header
  · refine ⟨.done, trivial, fun stack => ?_⟩
    rw [fuzzTargetRun, refused_eq, decide_eq_true h]
    rfl
  · obtain ⟨hmin, hmax, hnonzero⟩ : ¬ data.length < header + 1 ∧ ¬ 1024 * 16 < data.length ∧
        0 ∉ data.drop header := by tauto
    have hbyte : ∀ i < header, ∃ b, load data i = .ok b := fun i hi =>
      ⟨_, load_of_lt (by omega)⟩
    obtain ⟨slot, hslot⟩ := hbyte 0 (by decide)
    obtain ⟨digits, hdigits⟩ := hbyte 1 (by decide)
    obtain ⟨width, hwidth⟩ := hbyte 2 (by decide)
    obtain ⟨nsmall, hnsmall⟩ := hbyte 3 (by decide)
    obtain ⟨flag, hflag⟩ := hbyte 4 (by decide)
    have hflagValue : flag.toNat % 8 < flagValues.length := Nat.mod_lt _ (by decide)
    have hcall : slot.toNat % nCalls < calls.length := Nat.mod_lt _ (by decide)
    refine ⟨.store .digits (.integer ↑(1 + digits.toNat % 22)) <|
      .store .width (.integer ↑(width.toNat % 41)) <| .store .nsmall (.integer ↑(nsmall.toNat % 21)) <|
      .store .flag (.string .native (ascii flagValues[flag.toNat % 8])) <|
      .stage .inputString (.string .native (data.drop header)) <|
      .eval calls[slot.toNat % nCalls] fun _ => .done,
      ⟨fun c hc => ?_, fun _ => trivial⟩, fun stack => ?_⟩
    · rw [cells_calls hcall] at hc
      simp only [List.mem_cons, List.not_mem_nil, or_false] at hc
      simp only [Set.mem_insert_iff, Set.mem_empty_iff_false, or_false]
      tauto
    · obtain ⟨rest, hcopy⟩ := copyIn_eq ⟨data, stack⟩ (1024 * 16) header
        (by simp only [header] at hmin ⊢; omega)
      rw [fuzzTargetRun, refused_eq, decide_eq_false h]
      simp only [bind, Except.bind, hslot, hdigits, hwidth, hnsmall, hflag, hcopy,
        load_of_lt hflagValue, load_of_lt hcall, mkChar_zero hnonzero]
      rfl

end Format
end ROssFuzz.SlotTargets
