import ROssFuzz.LabelText
import Mathlib.Data.List.Dedup
import Mathlib.Data.List.Perm.Subperm

/-!
# Slot labels

`fuzz_label_calls` registers the calls of a target. A call that several slots share has one
entry, whose slots are found again in the text formatted before: up to the first " of ". An
entry's text is the block that was allocated for it.
-/

namespace ROssFuzz.SlotLabels
open CheckedOperations CStrings LabelText

/-- An element of `calls`: a `NULL`, R's own `R_NilValue`, or a call. -/
inductive Sexp (C : Type) | null | nilValue | call (c : C)
  deriving DecidableEq

/-- What `malloc` answers in the registration of a slot, for a size: `none` is `NULL`. What
is in a block is not known. -/
structure Malloc where
  block : ℕ → ℕ → Option Bytes
  length_eq : ∀ slot size b, block slot size = some b → b.length = size

/-- An entry of `fuzz_labels`. -/
structure Label (C : Type) where
  call : C
  text : Bytes

/-- `FUZZ_MAX_LABELS`. -/
def fuzzMaxLabels : ℕ := 128

variable {C : Type}

/-- `"==fuzz== slot %d of %d:\n"`. -/
def header (slot nSlots : ℕ) : Bytes :=
  ascii "==fuzz== slot " ++ decimal slot ++ ascii " of " ++ decimal nSlots ++ ascii ":\n"

section Code
variable (malloc : Malloc) (deparse : ℕ → C → Option (List CString))

/-- `fuzz_label_call` for a call that has an entry, the `i`-th: `"%.*s, %d%s"` around the
place of " of ", which is cast to `int` for the precision. -/
def addSlot (table : List (Label C)) (i : ℕ) (old : Label C) (slot : ℕ) :
    Except Stop (List (Label C)) := do
  let of ← strstr old.text (ascii " of ")
  let length ← strlen old.text
  match of, malloc.block slot (length + 32) with
  | some of, some buf =>
      let text := precise (castInt of) (old.text.take length) ++ ascii ", " ++ decimal slot ++
        (old.text.take length).drop of
      let buf ← snprintf buf (length + 32) text
      .ok (table.set i { old with text := buf })
  | _, _ => .ok table

/-- `fuzz_label_call` for a call without an entry. What `deparse` says of a call may depend
on when it is asked. -/
def newLabel (table : List (Label C)) (c : C) (slot nSlots : ℕ) : Except Stop (List (Label C)) :=
  if table.length = fuzzMaxLabels then .ok table
  else match malloc.block slot fuzzLabelMax with
    | none => .ok table
    | some buf => do
        let buf ← snprintf buf fuzzLabelMax (header slot nSlots)
        let job ← fuzzDoDeparse ⟨buf, (header slot nSlots).length⟩ (deparse slot c)
        .ok (table ++ [⟨c, job.buf⟩])

variable [DecidableEq C]

def fuzzLabelCall (table : List (Label C)) (slot nSlots : ℕ) :
    Sexp C → Except Stop (List (Label C))
  | .null | .nilValue => .ok table
  | .call c =>
      match table.findIdx? fun e => e.call = c with
      | some i => do addSlot malloc table i (← load table i) slot
      | none => newLabel malloc deparse table c slot nSlots

/-- The loop of `fuzz_label_calls` from index `i` on. -/
def labelFrom (nSlots : ℕ) : ℕ → List (Sexp C) → List (Label C) → Except Stop (List (Label C))
  | _, [], table => .ok table
  | i, call :: calls, table => do
      labelFrom nSlots (i + 1) calls (← fuzzLabelCall malloc deparse table i nSlots call)

/-- `fuzz_label_calls`, on a table that may have entries. -/
def fuzzLabelCalls (calls : List (Sexp C)) (table : List (Label C)) :
    Except Stop (List (Label C)) :=
  labelFrom malloc deparse calls.length 0 calls table

end Code

/-- `fuzz_label_enter`: what it leaves in `fuzz_label_current`, with `none` for -1. -/
def fuzzLabelEnter [DecidableEq C] (table : List (Label C)) (call : Sexp C) : Option ℕ :=
  table.findIdx? fun e => .call e.call = call

/-! ### What the labels say -/

/-- The slots of a call, in order. -/
def slotsOf [DecidableEq C] (calls : List (Sexp C)) (c : C) : List ℕ :=
  (List.range calls.length).filter fun j => calls[j]? = some (.call c)

/-- `"==fuzz== slot 2, 5"`. -/
def slotList (slots : List ℕ) : Bytes :=
  ascii "==fuzz== slot " ++ (ascii ", ").intercalate (slots.map decimal)

/-- `"==fuzz== slot 2, 5 of 6:\n"` and the deparsed call. -/
def labelText (nSlots : ℕ) (slots : List ℕ) (body : Bytes) : Bytes :=
  slotList slots ++ (ascii " of " ++ (decimal nSlots ++ ascii ":\n" ++ body))

/-- The call as deparsed at its first registration. -/
def firstBody (deparse : ℕ → C → Option (List CString)) (nSlots : ℕ) (slots : List ℕ) (c : C) :
    Bytes :=
  match slots with
  | [] => []
  | slot :: _ => bodyFrom (header slot nSlots).length ((deparse slot c).getD [])

/-! ### The text of a label -/

section Text
variable (nSlots : ℕ) (slots : List ℕ)

theorem header_eq (slot : ℕ) : header slot nSlots = labelText nSlots [slot] [] := by
  simp [header, labelText, slotList]

theorem slotList_snoc {slots : List ℕ} (slot : ℕ) (h : slots ≠ []) :
    slotList (slots ++ [slot]) = slotList slots ++ ascii ", " ++ decimal slot := by
  rw [slotList, slotList, List.map_append, List.map_singleton,
    intercalate_snoc _ _ (by simpa using h)]
  simp

/-- A byte after the word "slot" is a digit, a comma or a blank. -/
theorem mem_intercalate_decimal {b : UInt8} (h : b ∈ (ascii ", ").intercalate (slots.map decimal)) :
    b = 0x2c ∨ b = 0x20 ∨ 0x30 ≤ b.toNat ∧ b.toNat ≤ 0x39 := by
  induction slots with
  | nil => simp at h
  | cons slot slots ih =>
    cases slots with
    | nil => exact .inr (.inr (mem_decimal (by simpa using h)))
    | cons slot' slots =>
      rw [List.map_cons, List.map_cons, List.intercalate_cons_cons, List.append_assoc] at h
      rcases List.mem_append.mp h with h | h
      · exact .inr (.inr (mem_decimal h))
      · rcases List.mem_append.mp h with h | h
        · have hsep : b ∈ [0x2c, 0x20] := h
          simp only [List.mem_cons, List.not_mem_nil, or_false] at hsep
          exact hsep.imp_right .inl
        · exact ih h

theorem not_mem_slotList : 0 ∉ slotList slots := by
  have hhead : 0 ∉ ascii "==fuzz== slot " := by decide
  intro h
  rcases List.mem_append.mp h with h | h
  · exact hhead h
  · rcases mem_intercalate_decimal slots h with h | h | h
    · cases h
    · cases h
    · exact absurd h.1 (by decide)

theorem not_mem_labelText {body : Bytes} (h : 0 ∉ body) : 0 ∉ labelText nSlots slots body := by
  have hof : 0 ∉ ascii " of " := by decide
  have hend : 0 ∉ ascii ":\n" := by decide
  have hnumber : 0 ∉ decimal nSlots := fun h => absurd (mem_decimal h).1 (by decide)
  simp [labelText, not_mem_slotList, hof, hend, hnumber, h]

/-- The first " of " is the header's: an earlier one would have its `f` among the slots, in
the word `fuzz`, or where the header's has its blank or its `o`. -/
theorem find_of (body : Bytes) :
    find (ascii " of ") (labelText nSlots slots body) = some (slotList slots).length := by
  refine find_first fun i hi hprefix => ?_
  obtain ⟨tail, htail⟩ := hprefix
  have hneedle : ascii " of " = [0x20, 0x6f, 0x66, 0x20] := by decide
  have hbyte : ∀ k, ((slotList slots) ++ (ascii " of " ++
      (decimal nSlots ++ ascii ":\n" ++ body)))[i + k]? = (ascii " of " ++ tail)[k]? := by
    intro k
    rw [htail, List.getElem?_drop]
  have hblank := hbyte 0
  have hf := hbyte 2
  rw [List.getElem?_append_left (by simpa using hi)] at hblank
  by_cases hin : i + 2 < (slotList slots).length
  · rw [List.getElem?_append_left hin] at hf
    have hhead : ∀ j < 12, (ascii "==fuzz== slot ")[j]? = some 0x20 →
        (ascii "==fuzz== slot ")[j + 2]? ≠ some 0x66 := by decide
    have hlength : (ascii "==fuzz== slot ").length = 14 := by decide
    by_cases hword : i + 2 < 14
    · rw [slotList, List.getElem?_append_left (by omega)] at hblank hf
      exact hhead i (by omega) (by simpa [hneedle] using hblank) (by simpa [hneedle] using hf)
    · rw [slotList, List.getElem?_append_right (by omega)] at hf
      have hmem : (0x66 : UInt8) ∈ (ascii ", ").intercalate (slots.map decimal) :=
        List.mem_of_getElem? (by simpa [hneedle] using hf)
      rcases mem_intercalate_decimal slots hmem with h | h | h
      · cases h
      · cases h
      · exact absurd h.2 (by decide)
  · rw [List.getElem?_append_right (by omega), hneedle] at hf
    have hplace : i + 2 - (slotList slots).length = 0 ∨ i + 2 - (slotList slots).length = 1 := by
      omega
    rcases hplace with h | h <;> rw [h] at hf <;> simp at hf

theorem length_slotList_le {slots : List ℕ} (more : List ℕ) (h : slots ≠ []) :
    (slotList slots).length ≤ (slotList (slots ++ more)).length := by
  induction more generalizing slots with
  | nil => simp
  | cons slot more ih =>
    have hstep : (slotList slots).length ≤ (slotList (slots ++ [slot])).length := by
      rw [slotList_snoc slot h]
      simp
    have hmore := ih (show slots ++ [slot] ≠ [] by simp)
    rw [List.append_assoc, List.singleton_append] at hmore
    exact hstep.trans hmore

end Text

/-! ### One registration -/

theorem length_header_lt {slot nSlots : ℕ} (hslot : (slot : ℤ) ≤ intMax)
    (hn : (nSlots : ℤ) ≤ intMax) : (header slot nSlots).length < fuzzLabelMax - 64 := by
  have hmax : intMax = 2147483647 := rfl
  have hslot' : (decimal slot).length ≤ 10 := length_decimal_le (by decide) (by omega)
  have hn' : (decimal nSlots).length ≤ 10 := length_decimal_le (by decide) (by omega)
  have hlengths : (ascii "==fuzz== slot ").length = 14 ∧ (ascii " of ").length = 4 ∧
      (ascii ":\n").length = 2 := by decide
  have hroom : fuzzLabelMax - 64 = 4032 := by decide
  simp only [header, List.length_append, hlengths]
  omega

section Steps
variable {malloc : Malloc} {deparse : ℕ → C → Option (List CString)}

/-- A call without an entry gets one, with the header and what `deparse` says now. -/
theorem newLabel_spec {table : List (Label C)} {slot nSlots : ℕ} (c : C)
    (hspace : table.length ≠ fuzzMaxLabels) (hmalloc : malloc.block slot fuzzLabelMax ≠ none)
    (hslot : (slot : ℤ) ≤ intMax) (hn : (nSlots : ℤ) ≤ intMax) :
    ∃ text, newLabel malloc deparse table c slot nSlots = .ok (table ++ [⟨c, text⟩]) ∧
      text.length = fuzzLabelMax ∧
      HoldsText text (labelText nSlots [slot] (firstBody deparse nSlots [slot] c)) := by
  obtain ⟨buf, hbuf⟩ := Option.ne_none_iff_exists'.mp hmalloc
  have hlength := malloc.length_eq _ _ _ hbuf
  have hshort := length_header_lt hslot hn
  have hnonzero : 0 ∉ header slot nSlots := by
    rw [header_eq]
    exact not_mem_labelText nSlots [slot] List.not_mem_nil
  obtain ⟨out, hout, houtlength, houttext⟩ := @snprintf_holds buf _ (by omega) hnonzero
  rw [hlength] at hout houtlength
  have hmarker : (header slot nSlots).length + markerSize ≤ fuzzLabelMax := by
    have hsize : markerSize ≤ 64 := by decide
    omega
  have hholds : Holds ⟨out, (header slot nSlots).length⟩ (header slot nSlots) :=
    ⟨houtlength, rfl, houttext⟩
  obtain ⟨job, hjob, hjoblength, htext⟩ := fuzzDoDeparse_spec hholds hmarker (deparse slot c)
  refine ⟨job.buf, ?_, hjoblength, ?_⟩
  · rw [newLabel, if_neg hspace, hbuf]
    change (snprintf buf fuzzLabelMax (header slot nSlots) >>= _) = _
    rw [hout]
    change (fuzzDoDeparse _ _ >>= _) = _
    rw [hjob]
    rfl
  · simpa [header_eq, labelText, firstBody] using htext

/-- A call with an entry gets its slot named there: the text is formatted around the header's
own " of ", whatever the rest of it says, and in full. -/
theorem addSlot_spec {table : List (Label C)} {i slot nSlots : ℕ} {old : Label C}
    {slots : List ℕ} {body : Bytes} (htext : HoldsText old.text (labelText nSlots slots body))
    (hslots : slots ≠ [])
    (hmalloc : malloc.block slot ((labelText nSlots slots body).length + 32) ≠ none)
    (hprint : ((slotList slots).length : ℤ) ≤ intMax) (hslot : (slot : ℤ) ≤ intMax) :
    ∃ text, addSlot malloc table i old slot = .ok (table.set i { old with text }) ∧
      HoldsText text (labelText nSlots (slots ++ [slot]) body) := by
  obtain ⟨buf, hbuf⟩ := Option.ne_none_iff_exists'.mp hmalloc
  have hlength := malloc.length_eq _ _ _ hbuf
  have hmax : intMax = 2147483647 := rfl
  have hdigits : (decimal slot).length ≤ 10 := length_decimal_le (by decide) (by omega)
  have hsep : (ascii ", ").length = 2 := by decide
  have hpart : precise (castInt (slotList slots).length) (labelText nSlots slots body) =
      slotList slots := by
    rw [castInt_of_le hprint, precise, if_neg (by omega), Int.toNat_natCast, labelText,
      List.take_left]
  have hnew : slotList slots ++ ascii ", " ++ decimal slot ++
      (labelText nSlots slots body).drop (slotList slots).length =
        labelText nSlots (slots ++ [slot]) body := by
    rw [labelText, List.drop_left, labelText, slotList_snoc slot hslots]
  have hnewlength : (labelText nSlots (slots ++ [slot]) body).length < buf.length := by
    rw [hlength, labelText, labelText, slotList_snoc slot hslots]
    simp only [List.length_append, hsep]
    omega
  have hnonzero : 0 ∉ body := fun h => htext.1 (by simp [labelText, h])
  obtain ⟨out, hout, -, houttext⟩ := snprintf_holds hnewlength
    (not_mem_labelText nSlots (slots ++ [slot]) hnonzero)
  refine ⟨out, ?_, houttext⟩
  have hof := htext.strstr (ascii " of ")
  rw [find_of] at hof
  refine bind_eq_ok.mpr ⟨_, hof, bind_eq_ok.mpr ⟨_, htext.strlen, ?_⟩⟩
  rw [hbuf]
  refine bind_eq_ok.mpr ⟨out, ?_, rfl⟩
  rw [htext.take, hpart, hnew, ← hlength]
  exact hout

end Steps

/-! ### The table -/

section Table
variable [DecidableEq C]

theorem slotsOf_append (calls rest : List (Sexp C)) (c : C) :
    slotsOf (calls ++ rest) c = slotsOf calls c ++ (slotsOf rest c).map (calls.length + ·) := by
  rw [slotsOf, List.length_append, List.range_add, List.filter_append, List.filter_map]
  congr 1
  · refine List.filter_congr fun j hj => ?_
    rw [List.getElem?_append_left (List.mem_range.mp hj)]
  · refine congrArg (List.map (calls.length + ·)) (List.filter_congr fun j _ => ?_)
    simp [List.getElem?_append_right]

theorem slotsOf_snoc (calls : List (Sexp C)) (s : Sexp C) (c : C) :
    slotsOf (calls ++ [s]) c = slotsOf calls c ++ if s = .call c then [calls.length] else [] := by
  rw [slotsOf_append]
  by_cases hs : s = .call c <;> simp [slotsOf, hs]

theorem slotsOf_ne_nil {calls : List (Sexp C)} {c : C} :
    slotsOf calls c ≠ [] ↔ .call c ∈ calls := by
  have hmem : ∀ j, j ∈ slotsOf calls c ↔ calls[j]? = some (.call c) := by
    intro j
    rw [slotsOf, List.mem_filter, List.mem_range, decide_eq_true_iff]
    exact ⟨And.right, fun h => ⟨(List.getElem?_eq_some_iff.mp h).1, h⟩⟩
  rw [Ne, List.eq_nil_iff_forall_not_mem, not_forall_not, List.mem_iff_getElem?]
  exact exists_congr hmem

omit [DecidableEq C] in
theorem firstBody_append (deparse : ℕ → C → Option (List CString)) (nSlots : ℕ) (c : C)
    {slots : List ℕ} (more : List ℕ) (h : slots ≠ []) :
    firstBody deparse nSlots (slots ++ more) c = firstBody deparse nSlots slots c := by
  cases slots with
  | nil => exact absurd rfl h
  | cons slot slots => rfl

/-- After the calls so far: one entry for each call, which names its slots. -/
structure Registered (deparse : ℕ → C → Option (List CString)) (nSlots : ℕ)
    (calls : List (Sexp C)) (table : List (Label C)) : Prop where
  nodup : (table.map Label.call).Nodup
  mem : ∀ c, c ∈ table.map Label.call ↔ .call c ∈ calls
  text : ∀ e ∈ table, HoldsText e.text (labelText nSlots (slotsOf calls e.call)
    (firstBody deparse nSlots (slotsOf calls e.call) e.call))

/-- The calls, each once. -/
def distinctCalls (calls : List (Sexp C)) : List C :=
  (calls.filterMap fun | .call c => some c | _ => none).dedup

@[simp] theorem mem_distinctCalls {calls : List (Sexp C)} {c : C} :
    c ∈ distinctCalls calls ↔ .call c ∈ calls := by
  rw [distinctCalls, List.mem_dedup, List.mem_filterMap]
  constructor
  · rintro ⟨s, hs, heq⟩
    cases s with
    | call c' =>
      obtain rfl : c' = c := by simpa using heq
      exact hs
    | _ => simp at heq
  · exact fun h => ⟨_, h, rfl⟩

variable {deparse : ℕ → C → Option (List CString)} {nSlots : ℕ} {calls : List (Sexp C)}
  {table : List (Label C)}

/-- An entry's call is one of those so far. -/
theorem Registered.call_mem (h : Registered deparse nSlots calls table) {e : Label C}
    (he : e ∈ table) : .call e.call ∈ calls :=
  (h.mem e.call).mp (List.mem_map.mpr ⟨e, he, rfl⟩)

/-- No two entries are for one call. -/
theorem Registered.index_inj (h : Registered deparse nSlots calls table) {i j : ℕ}
    (hi : i < table.length) (hj : j < table.length) (heq : table[i].call = table[j].call) :
    i = j := by
  have hi' : i < (table.map Label.call).length := by simpa
  have hj' : j < (table.map Label.call).length := by simpa
  have hcalls : (table.map Label.call)[i] = (table.map Label.call)[j] := by simpa using heq
  exact h.nodup.getElem_inj_iff.mp hcalls

/-- What is no call is no slot of any. -/
theorem Registered.skip (h : Registered deparse nSlots calls table) {s : Sexp C}
    (hs : ∀ c, s ≠ .call c) : Registered deparse nSlots (calls ++ [s]) table := by
  have hslots : ∀ c, slotsOf (calls ++ [s]) c = slotsOf calls c := fun c => by
    simp [slotsOf_snoc, hs c]
  refine ⟨h.nodup, fun c => ?_, fun e he => ?_⟩
  · simp [h.mem c, (hs c).symm]
  · rw [hslots]
    exact h.text e he

/-- A first registration. -/
theorem Registered.insert (h : Registered deparse nSlots calls table) {c : C} {text : Bytes}
    (hnew : ∀ e ∈ table, e.call ≠ c)
    (htext : HoldsText text (labelText nSlots [calls.length]
      (firstBody deparse nSlots [calls.length] c))) :
    Registered deparse nSlots (calls ++ [.call c]) (table ++ [⟨c, text⟩]) := by
  have hnot : c ∉ table.map Label.call := by
    rintro hc
    obtain ⟨e, he, rfl⟩ := List.mem_map.mp hc
    exact hnew e he rfl
  refine ⟨?_, fun c' => ?_, fun e he => ?_⟩
  · rw [List.map_append, List.map_singleton]
    exact List.nodup_append.mpr ⟨h.nodup, List.nodup_singleton c, by
      rintro a ha b hb rfl
      obtain rfl := List.mem_singleton.mp hb
      exact hnot ha⟩
  · simp [h.mem c']
  · rcases List.mem_append.mp he with he | he
    · have hslots : slotsOf (calls ++ [.call c]) e.call = slotsOf calls e.call := by
        simp [slotsOf_snoc, (hnew e he).symm]
      rw [hslots]
      exact h.text e he
    · obtain rfl := List.mem_singleton.mp he
      have hslots : slotsOf (calls ++ [.call c]) c = [calls.length] := by
        have hnil : slotsOf calls c = [] := by
          by_contra hne
          exact hnot ((h.mem c).mpr (slotsOf_ne_nil.mp hne))
        simp [slotsOf_snoc, hnil]
      simpa only [hslots] using htext

/-- A registration of a call that has an entry. -/
theorem Registered.update (h : Registered deparse nSlots calls table) {i : ℕ} {e : Label C}
    (hi : table[i]? = some e) {text : Bytes}
    (htext : HoldsText text (labelText nSlots (slotsOf calls e.call ++ [calls.length])
      (firstBody deparse nSlots (slotsOf calls e.call) e.call))) :
    Registered deparse nSlots (calls ++ [.call e.call]) (table.set i { e with text }) := by
  obtain ⟨hlt, rfl⟩ := List.getElem?_eq_some_iff.mp hi
  have hcalls : (table.set i { table[i] with text }).map Label.call = table.map Label.call := by
    have hlt' : i < (table.map Label.call).length := by simpa using hlt
    have hself : (table.map Label.call)[i] = table[i].call := List.getElem_map ..
    rw [List.map_set, ← hself, List.set_getElem_self]
  have hknown := h.call_mem (List.getElem_mem hlt)
  refine ⟨hcalls ▸ h.nodup, fun c => ?_, fun e he => ?_⟩
  · rw [hcalls, h.mem c]
    simp only [List.mem_append, List.mem_singleton, Sexp.call.injEq]
    exact ⟨.inl, fun hc => hc.elim id fun heq => heq ▸ hknown⟩
  · obtain ⟨j, hj⟩ := List.mem_iff_getElem?.mp he
    by_cases hij : i = j
    · subst hij
      obtain rfl : { table[i] with text } = e := by simpa [hlt] using hj
      have hslots : slotsOf (calls ++ [.call table[i].call]) table[i].call =
          slotsOf calls table[i].call ++ [calls.length] := by simp [slotsOf_snoc]
      simpa only [hslots, firstBody_append deparse nSlots _ _ (slotsOf_ne_nil.mpr hknown)]
        using htext
    · rw [List.getElem?_set_ne hij] at hj
      obtain ⟨hjlt, rfl⟩ := List.getElem?_eq_some_iff.mp hj
      have hne : table[i].call ≠ table[j].call := by
        intro heq
        exact hij (h.index_inj (by simpa using hlt) hjlt heq)
      have hslots : slotsOf (calls ++ [.call table[i].call]) table[j].call =
          slotsOf calls table[j].call := by simp [slotsOf_snoc, hne]
      rw [hslots]
      exact h.text _ (List.getElem_mem hjlt)

/-- The slots that others are added to leave `%.*s` a precision that is an `int`. -/
def Printable (calls : List (Sexp C)) : Prop :=
  ∀ c, .call c ∈ calls → ((slotList (slotsOf calls c).dropLast).length : ℤ) ≤ intMax

/-- The slots that a call of the array has before the array's end are printable. -/
theorem Printable.earlier {c : C} {rest : List (Sexp C)}
    (h : Printable (calls ++ .call c :: rest)) (hc : slotsOf calls c ≠ []) :
    ((slotList (slotsOf calls c)).length : ℤ) ≤ intMax := by
  have hmore : (slotsOf (.call c :: rest) c).map (calls.length + ·) ≠ [] := by
    simpa using slotsOf_ne_nil.mpr (List.mem_cons_self (a := Sexp.call c) (l := rest))
  have hprint := h c (by simp)
  rw [slotsOf_append, List.dropLast_append_of_ne_nil hmore] at hprint
  have hle := length_slotList_le
    ((slotsOf (.call c :: rest) c).map (calls.length + ·)).dropLast hc
  omega

variable {malloc : Malloc}

/-- One call of the array. -/
theorem fuzzLabelCall_spec (h : Registered deparse nSlots calls table) {s : Sexp C}
    {rest : List (Sexp C)} (hmalloc : ∀ slot size, malloc.block slot size ≠ none)
    (hslot : (calls.length : ℤ) ≤ intMax) (hn : (nSlots : ℤ) ≤ intMax)
    (hdistinct : (distinctCalls (calls ++ s :: rest)).length ≤ fuzzMaxLabels)
    (hprint : Printable (calls ++ s :: rest)) :
    ∃ table', fuzzLabelCall malloc deparse table calls.length nSlots s = .ok table' ∧
      Registered deparse nSlots (calls ++ [s]) table' := by
  cases s with
  | null | nilValue => exact ⟨table, rfl, h.skip (by simp)⟩
  | call c =>
    cases hfind : table.findIdx? fun e => e.call = c with
    | none =>
      have hnew : ∀ e ∈ table, e.call ≠ c := by
        simpa using List.findIdx?_eq_none_iff.mp hfind
      have hspace : table.length ≠ fuzzMaxLabels := by
        -- with this call there would be one more than all that are distinct
        have hsub : c :: table.map Label.call ⊆ distinctCalls (calls ++ .call c :: rest) := by
          intro c' hc'
          rcases List.mem_cons.mp hc' with rfl | hc'
          · simp
          · simp [(h.mem c').mp hc']
        have hnodup : (c :: table.map Label.call).Nodup := by
          refine List.nodup_cons.mpr ⟨fun hc => ?_, h.nodup⟩
          obtain ⟨e, he, heq⟩ := List.mem_map.mp hc
          exact hnew e he heq
        have hle := (List.Nodup.subperm hnodup hsub).length_le
        simp only [List.length_cons, List.length_map] at hle
        omega
      obtain ⟨text, hrun, -, htext⟩ :=
        @newLabel_spec _ malloc deparse _ _ _ c hspace (hmalloc _ _) hslot hn
      exact ⟨_, by rw [fuzzLabelCall, hfind]; exact hrun, h.insert hnew htext⟩
    | some i =>
      obtain ⟨hlt, hcall, -⟩ := List.findIdx?_eq_some_iff_getElem.mp hfind
      obtain rfl : table[i].call = c := by simpa using hcall
      have hknown := slotsOf_ne_nil.mpr (h.call_mem (List.getElem_mem hlt))
      have htext := h.text _ (List.getElem_mem hlt)
      obtain ⟨text, hrun, htext⟩ := @addSlot_spec _ malloc table i _ _ _ _ _ htext hknown
        (hmalloc _ _) (hprint.earlier hknown) hslot
      refine ⟨_, ?_, h.update (List.getElem?_eq_getElem hlt) htext⟩
      rw [fuzzLabelCall, hfind]
      change (load table i >>= _) = _
      rw [load_of_lt hlt]
      exact hrun

/-- The loop, from any place in the array. -/
theorem labelFrom_spec (h : Registered deparse nSlots calls table) (rest : List (Sexp C))
    (hmalloc : ∀ slot size, malloc.block slot size ≠ none)
    (hlength : ((calls ++ rest).length : ℤ) ≤ intMax) (hn : (nSlots : ℤ) ≤ intMax)
    (hdistinct : (distinctCalls (calls ++ rest)).length ≤ fuzzMaxLabels)
    (hprint : Printable (calls ++ rest)) :
    ∃ table', labelFrom malloc deparse nSlots calls.length rest table = .ok table' ∧
      Registered deparse nSlots (calls ++ rest) table' := by
  induction rest generalizing calls table with
  | nil => exact ⟨table, rfl, by simpa using h⟩
  | cons s rest ih =>
    obtain ⟨table₁, hrun, h₁⟩ := fuzzLabelCall_spec h hmalloc (by simp at hlength; omega) hn
      hdistinct hprint
    have hsplit : calls ++ s :: rest = calls ++ [s] ++ rest := by simp
    rw [hsplit] at hlength hdistinct hprint ⊢
    obtain ⟨table', hrest, h'⟩ := ih h₁ hlength hdistinct hprint
    refine ⟨table', ?_, h'⟩
    rw [labelFrom, hrun]
    rw [List.length_append] at hrest
    exact hrest

/-- `fuzz_label_enter` selects the entry of a registered call, and none for anything else. -/
theorem Registered.enter (h : Registered deparse nSlots calls table) (s : Sexp C) :
    (∀ i, fuzzLabelEnter table s = some i ↔ ∃ e, table[i]? = some e ∧ s = .call e.call) ∧
      (fuzzLabelEnter table s = none ↔ ∀ c, s = .call c → .call c ∉ calls) := by
  constructor
  · intro i
    rw [fuzzLabelEnter, List.findIdx?_eq_some_iff_getElem]
    constructor
    · rintro ⟨hlt, hs, -⟩
      have heq : Sexp.call table[i].call = s := by simpa using hs
      exact ⟨table[i], List.getElem?_eq_getElem hlt, heq.symm⟩
    · rintro ⟨e, hi, rfl⟩
      obtain ⟨hlt, rfl⟩ := List.getElem?_eq_some_iff.mp hi
      refine ⟨hlt, by simp, fun j hj heq => ?_⟩
      have hji := h.index_inj (hj.trans hlt) hlt (by simpa using heq)
      omega
  · rw [fuzzLabelEnter, List.findIdx?_eq_none_iff]
    constructor
    · rintro hnone c rfl hc
      obtain ⟨e, he, rfl⟩ := List.mem_map.mp ((h.mem c).mpr hc)
      simpa using hnone e he
    · intro hcalls e he
      have hne : Sexp.call e.call ≠ s := fun heq => hcalls e.call heq.symm (h.call_mem he)
      simpa using hne

/-- For every array of at most 128 distinct calls, with anything that is no call among them
and with any repetitions, whose lists of slots have a length that is an `int`: one entry for each
call, which names exactly its slots and is otherwise as at its first registration, and which
`fuzz_label_enter` selects for that call alone. `n` is an `int`. -/
theorem fuzzLabelCalls_names (calls : List (Sexp C)) (hn : (calls.length : ℤ) ≤ intMax)
    (hmalloc : ∀ slot size, malloc.block slot size ≠ none)
    (hdistinct : (distinctCalls calls).length ≤ fuzzMaxLabels)
    (hprint : Printable calls) :
    ∃ table, fuzzLabelCalls malloc deparse calls [] = .ok table ∧
      Registered deparse calls.length calls table ∧
      ∀ s, (∀ i, fuzzLabelEnter table s = some i ↔ ∃ e, table[i]? = some e ∧ s = .call e.call) ∧
        (fuzzLabelEnter table s = none ↔ ∀ c, s = .call c → .call c ∉ calls) := by
  have hstart : Registered deparse calls.length ([] : List (Sexp C)) [] :=
    ⟨List.nodup_nil, by simp, by simp⟩
  obtain ⟨table, hrun, h⟩ := labelFrom_spec hstart calls hmalloc hn hn hdistinct hprint
  exact ⟨table, hrun, h, h.enter⟩

/-- Blocks of zeros, of any size. -/
def zeroed : Malloc where
  block _ size := some (List.replicate size 0)
  length_eq slot size b h := by
    obtain rfl := Option.some.inj h
    exact List.length_replicate

end Table

/-! ### Lists of slots that are too long -/

/-- Every text's " of " stands where an `int` can say, or where one more slot has put it. -/
def Near (table : List (Label Unit)) : Prop :=
  ∀ e ∈ table, ∃ text place, HoldsText e.text text ∧ find (ascii " of ") text = some place ∧
    (place : ℤ) ≤ intMax + 12

/-- Past `INT_MAX` the precision is negative, so all of the text stands before the new slot. -/
private theorem near_printed {text : Bytes} {place slot : ℕ}
    (hfind : find (ascii " of ") text = some place) (hplace : (place : ℤ) ≤ intMax + 12)
    (hslot : (slot : ℤ) ≤ intMax) :
    ∃ place', find (ascii " of ") ((precise (castInt place) text ++ ascii ", " ++ decimal slot ++
        text.drop place).take (text.length + 31)) = some place' ∧ (place' : ℤ) ≤ intMax + 12 := by
  have hmax : intMax = 2147483647 := rfl
  have hdigits : (decimal slot).length ≤ 10 := length_decimal_le (by decide) (by omega)
  have hsep : (ascii ", ").length = 2 := by decide
  have hneedle : (ascii " of ").length = 4 := by decide
  have hof := find_spec hfind
  have hlength := hof.length_le
  rw [List.length_drop, hneedle] at hlength
  rcases le_or_gt (place : ℤ) intMax with hle | hgt
  · have hprecise : precise (castInt place) text = text.take place := by
      rw [castInt_of_le hle, precise, if_neg (by omega), Int.toNat_natCast]
    have hbefore : (text.take place ++ ascii ", " ++ decimal slot).length =
        place + 2 + (decimal slot).length := by
      rw [List.length_append, List.length_append, List.length_take, hsep,
        Nat.min_eq_left (by omega)]
    rw [hprecise, List.take_of_length_le (by
      rw [List.length_append, hbefore, List.length_drop]
      omega)]
    obtain ⟨place', hle', hfind'⟩ := @find_le (ascii " of ")
      (text.take place ++ ascii ", " ++ decimal slot ++ text.drop place)
      (place + 2 + (decimal slot).length) (by rwa [← hbefore, List.drop_left]) (by
        rw [List.length_append, hbefore, List.length_drop]
        omega)
    exact ⟨place', hfind', by omega⟩
  · have hprecise : precise (castInt place) text = text := by
      rw [precise, if_pos (castInt_neg hgt (by omega))]
    rw [hprecise, List.append_assoc, List.append_assoc, List.take_length_add_append]
    obtain ⟨place', hle', hfind'⟩ := @find_le (ascii " of ")
      (text ++ (ascii ", " ++ (decimal slot ++ text.drop place)).take 31) place (by
        rw [List.drop_append_of_le_length (by omega)]
        exact hof.trans (List.prefix_append _ _)) (by
        rw [List.length_append]
        omega)
    exact ⟨place', hfind', by omega⟩

/-- A slot more. -/
private theorem addSlot_near {table table' : List (Label Unit)} {i slot : ℕ} {old : Label Unit}
    (h : addSlot zeroed table i old slot = .ok table') (hnear : Near table) (hold : old ∈ table)
    (hslot : (slot : ℤ) ≤ intMax) : Near table' := by
  obtain ⟨text, place, htext, hfind, hplace⟩ := hnear old hold
  obtain ⟨place', hfind', hplace'⟩ := near_printed hfind hplace hslot
  have hnonzero : 0 ∉ precise (castInt place) text ++ ascii ", " ++ decimal slot ++
      text.drop place := by
    have hsep : 0 ∉ ascii ", " := by decide
    have hnumber : 0 ∉ decimal slot := fun h => absurd (mem_decimal h).1 (by decide)
    have hprecise : 0 ∉ precise (castInt place) text := by
      rw [precise]
      split
      · exact htext.1
      · exact fun hmem => htext.1 (List.mem_of_mem_take hmem)
    have hrest : 0 ∉ text.drop place := fun hmem => htext.1 (List.mem_of_mem_drop hmem)
    simp only [List.mem_append, not_or]
    exact ⟨⟨⟨hprecise, hsep⟩, hnumber⟩, hrest⟩
  obtain ⟨out, hout, -, houttext⟩ :=
    @snprintf_spec (List.replicate (text.length + 32) 0) _ (by simp) hnonzero
  rw [List.length_replicate] at hout houttext
  have hof := htext.strstr (ascii " of ")
  rw [hfind] at hof
  have hadd : addSlot zeroed table i old slot = .ok (table.set i { old with text := out }) := by
    refine bind_eq_ok.mpr ⟨_, hof, bind_eq_ok.mpr ⟨_, htext.strlen, ?_⟩⟩
    refine bind_eq_ok.mpr ⟨out, ?_, rfl⟩
    rw [htext.take]
    exact hout
  obtain rfl := Except.ok.inj (hadd.symm.trans h)
  intro e he
  rcases List.mem_or_eq_of_mem_set he with he | rfl
  · exact hnear e he
  · exact ⟨_, place', houttext, hfind', hplace'⟩

private theorem newLabel_near {table table' : List (Label Unit)} {slot nSlots : ℕ}
    (h : newLabel zeroed (fun _ _ => none) table () slot nSlots = .ok table') (hnear : Near table)
    (hslot : (slot : ℤ) ≤ intMax) (hn : (nSlots : ℤ) ≤ intMax) : Near table' := by
  by_cases hspace : table.length = fuzzMaxLabels
  · rw [newLabel, if_pos hspace] at h
    obtain rfl := Except.ok.inj h
    exact hnear
  · obtain ⟨text, hrun, -, htext⟩ :=
      @newLabel_spec _ zeroed (fun _ _ => none) table slot nSlots () hspace nofun hslot hn
    obtain rfl := Except.ok.inj (hrun.symm.trans h)
    intro e he
    rcases List.mem_append.mp he with he | he
    · exact hnear e he
    · obtain rfl := List.mem_singleton.mp he
      refine ⟨_, _, htext, find_of .., ?_⟩
      have hmax : intMax = 2147483647 := rfl
      have hdigits : (decimal slot).length ≤ 10 := length_decimal_le (by decide) (by omega)
      have hhead : (ascii "==fuzz== slot ").length = 14 := by decide
      simp only [slotList, List.map_cons, List.map_nil, List.intercalate_singleton,
        List.length_append, hhead]
      omega

private theorem labelFrom_near {nSlots : ℕ} (calls : List (Sexp Unit)) {i : ℕ}
    {table table' : List (Label Unit)}
    (h : labelFrom zeroed (fun _ _ => none) nSlots i calls table = .ok table')
    (hnear : Near table) (hlength : ((i + calls.length : ℕ) : ℤ) ≤ intMax)
    (hn : (nSlots : ℤ) ≤ intMax) : Near table' := by
  induction calls generalizing i table with
  | nil =>
    obtain rfl := Except.ok.inj h
    exact hnear
  | cons s calls ih =>
    rw [List.length_cons] at hlength
    obtain ⟨table₁, hone, hrest⟩ := bind_eq_ok.mp h
    refine ih hrest ?_ (by omega)
    cases s with
    | null | nilValue =>
      obtain rfl := Except.ok.inj hone
      exact hnear
    | call c =>
      rw [fuzzLabelCall] at hone
      split at hone
      · obtain ⟨old, hold, hone⟩ := bind_eq_ok.mp hone
        exact addSlot_near hone hnear (List.mem_of_getElem? (load_eq_ok_iff.mp hold)) (by omega)
      · exact newLabel_near hone hnear (by omega) hn

/-- Every slot takes at least three bytes of its call's label. -/
private theorem length_slotList_ge (slots : List ℕ) :
    3 * slots.length ≤ (slotList slots).length := by
  have hhead : (ascii "==fuzz== slot ").length = 14 := by decide
  have hsep : (ascii ", ").length = 2 := by decide
  have hlist : 3 * slots.length ≤ ((ascii ", ").intercalate (slots.map decimal)).length + 2 := by
    induction slots with
    | nil => simp
    | cons slot slots ih =>
      have hpos := length_decimal_pos slot
      cases slots with
      | nil =>
        simp
        omega
      | cons slot' slots =>
        rw [List.map_cons, List.map_cons, List.intercalate_cons_cons]
        rw [List.map_cons] at ih
        simp only [List.length_append, List.length_cons, hsep] at ih ⊢
        omega
  rw [slotList, List.length_append]
  omega

/-- An array of 10⁹ slots that all have the same call: the length of its list of slots is not
an `int` any more after some of them, and from there on the label does not name its slots. -/
theorem fuzzLabelCalls_outgrow :
    ∃ calls : List (Sexp Unit), calls = List.replicate 1000000000 (.call ()) ∧
      (calls.length : ℤ) ≤ intMax ∧ (∀ slot size, zeroed.block slot size ≠ none) ∧
      (distinctCalls calls).length ≤ fuzzMaxLabels ∧
      ¬ ∃ table, fuzzLabelCalls zeroed (fun _ _ => none) calls [] = .ok table ∧
        Registered (fun _ _ => none) calls.length calls table := by
  have hlength : (List.replicate 1000000000 (Sexp.call ())).length = 1000000000 :=
    List.length_replicate
  have hall : ∀ s ∈ List.replicate 1000000000 (Sexp.call ()), s = .call () := fun s hs =>
    List.eq_of_mem_replicate hs
  refine ⟨_, rfl, ?_⟩
  generalize List.replicate 1000000000 (Sexp.call ()) = calls at hlength hall
  have hslots : (slotsOf calls ()).length = 1000000000 := by
    rw [slotsOf, List.filter_eq_self.mpr fun j hj => ?_, List.length_range, hlength]
    have hlt := List.mem_range.mp hj
    rw [List.getElem?_eq_getElem hlt, hall _ (List.getElem_mem hlt)]
    rfl
  refine ⟨by rw [hlength]; decide, nofun, ?_, ?_⟩
  · have hsub : distinctCalls calls ⊆ [()] := fun c _ => by simp
    exact (List.Nodup.subperm (List.nodup_dedup _) hsub).length_le.trans (by decide)
  · rintro ⟨table, hrun, h⟩
    have hmem : () ∈ table.map Label.call := by
      refine (h.mem ()).mpr (slotsOf_ne_nil.mp fun hnil => ?_)
      rw [hnil] at hslots
      cases hslots
    obtain ⟨e, he, hcall⟩ := List.mem_map.mp hmem
    obtain ⟨text, place, htext, hfind, hplace⟩ :=
      labelFrom_near calls hrun (by simp [Near]) (by rw [hlength]; decide)
        (by rw [hlength]; decide) e he
    have hge := length_slotList_ge (slotsOf calls e.call)
    have hmax : intMax = 2147483647 := rfl
    rw [htext.unique (h.text e he), find_of, Option.some_inj] at hfind
    rw [hcall, hslots] at hge
    rw [hcall] at hfind
    omega

/-- Six slots: one call in the third and the last, whose source says " of " itself, another in
two more, and two that are run in C. -/
theorem fuzzLabelCalls_names_shared :
    ∃ table, fuzzLabelCalls zeroed
        (fun _ c => if c then some [⟨ascii "c(1 of 2)", by decide⟩] else none)
        [.call false, .null, .call true, .nilValue, .call false, .call true] [] = .ok table ∧
      ∃ e ∈ table, e.call = true ∧
        HoldsText e.text (ascii "==fuzz== slot 2, 5 of 6:\n    c(1 of 2)\n") := by
  obtain ⟨table, hrun, h, -⟩ := @fuzzLabelCalls_names _ _
    (fun _ c => if c then some [⟨ascii "c(1 of 2)", by decide⟩] else none) zeroed
    [.call false, .null, .call true, .nilValue, .call false, .call true] (by decide) nofun
    (by decide) (by intro c _; cases c <;> decide)
  obtain ⟨e, he, hcall⟩ := List.mem_map.mp ((h.mem true).mpr (by decide))
  refine ⟨table, hrun, e, he, hcall, ?_⟩
  have htext := h.text e he
  rw [hcall] at htext
  exact htext

end ROssFuzz.SlotLabels
