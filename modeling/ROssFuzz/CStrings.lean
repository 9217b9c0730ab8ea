import ROssFuzz.CheckedOperations
import Mathlib.Data.List.Infix
import Mathlib.Algebra.Order.Ring.Nat

/-!
# C strings in memory

A block of memory is the list of its bytes, and the text in it ends before its first NUL.
The functions of `string.h` fault where they would leave the block. `snprintf` takes the
text that its format and arguments stand for.
-/

namespace ROssFuzz.CStrings
open CheckedOperations

abbrev Bytes := List UInt8

/-- The bytes of a string literal. -/
def ascii (s : String) : Bytes := s.toList.map fun c => UInt8.ofNat c.toNat

/-- `%d` of a number that is not negative. -/
def decimal (n : ℕ) : Bytes := (Nat.toDigits 10 n).map fun c => UInt8.ofNat c.toNat

/-- A text without NUL, as a C string has it. -/
structure CString where
  bytes : Bytes
  nonzero : 0 ∉ bytes

/-- The block holds the text, its terminator, and whatever else. -/
def HoldsText (block text : Bytes) : Prop := 0 ∉ text ∧ ∃ rest, block = text ++ 0 :: rest

def strlen (block : Bytes) : Except Stop ℕ :=
  if 0 ∈ block then .ok (block.idxOf 0) else .error .fault

/-- The place of the first occurrence of `needle`. -/
def find (needle : Bytes) : Bytes → Option ℕ
  | [] => if needle = [] then some 0 else none
  | b :: text => if needle <+: b :: text then some 0 else (find needle text).map (· + 1)

def strstr (block needle : Bytes) : Except Stop (Option ℕ) := do
  .ok (find needle (block.take (← strlen block)))

def memcpy (block : Bytes) (pos : ℕ) (src : Bytes) : Except Stop Bytes :=
  if pos + src.length ≤ block.length then
    .ok (block.take pos ++ src ++ block.drop (pos + src.length))
  else .error .fault

/-- What `snprintf(block, size, ...)` leaves in the block. It writes nothing for a size of 0. -/
def snprintf (block : Bytes) (size : ℕ) (text : Bytes) : Except Stop Bytes :=
  if size = 0 then .ok block else memcpy block 0 (text.take (size - 1) ++ [0])

/-- The conversion of a size to `int`, which keeps its low 32 bits. -/
def castInt (n : ℕ) : ℤ := ((n : ℤ) + 2147483648) % 4294967296 - 2147483648

/-- `%.*s`: a precision that is negative is as if there were none. -/
def precise (precision : ℤ) (text : Bytes) : Bytes :=
  if precision < 0 then text else text.take precision.toNat

/-! ### Texts -/

section Texts
variable {block text : Bytes}

theorem HoldsText.strlen (h : HoldsText block text) : strlen block = .ok text.length := by
  obtain ⟨hnonzero, rest, rfl⟩ := h
  rw [CStrings.strlen, if_pos (by simp), List.idxOf_append_of_notMem hnonzero]
  simp

theorem HoldsText.take (h : HoldsText block text) : block.take text.length = text := by
  obtain ⟨-, rest, rfl⟩ := h
  exact List.take_left

/-- A block holds one text. -/
theorem HoldsText.unique {text' : Bytes} (h : HoldsText block text) (h' : HoldsText block text') :
    text = text' := by
  have hlength := h.strlen
  rw [h'.strlen] at hlength
  have heq : text'.length = text.length := by simpa using hlength
  rw [← h.take, ← h'.take, heq]

theorem HoldsText.strstr (h : HoldsText block text) (needle : Bytes) :
    strstr block needle = .ok (find needle text) := by
  rw [CStrings.strstr, h.strlen]
  change Except.ok (find needle (block.take text.length)) = _
  rw [h.take]

/-- No occurrence comes before the first one. -/
theorem find_le {needle text : Bytes} {i : ℕ} (h : needle <+: text.drop i) (hi : i < text.length) :
    ∃ j ≤ i, find needle text = some j := by
  induction text generalizing i with
  | nil => simp at hi
  | cons b text ih =>
    rw [find]
    split
    · exact ⟨0, Nat.zero_le i, rfl⟩
    · rename_i hhead
      cases i with
      | zero => exact absurd h hhead
      | succ i =>
        obtain ⟨j, hj, hfind⟩ := ih (by simpa using h) (by simpa using hi)
        exact ⟨j + 1, by omega, by simp [hfind]⟩

theorem find_spec {needle text : Bytes} {i : ℕ} (h : find needle text = some i) :
    needle <+: text.drop i := by
  induction text generalizing i with
  | nil =>
    rw [find] at h
    split at h
    · simp_all
    · cases h
  | cons b text ih =>
    rw [find] at h
    split at h
    · obtain rfl : 0 = i := by simpa using h
      simpa
    · obtain ⟨j, hj, rfl⟩ := Option.map_eq_some_iff.mp h
      simpa using ih hj

/-- An occurrence that no other one comes before. -/
theorem find_first {needle before after : Bytes}
    (h : ∀ i < before.length, ¬ needle <+: (before ++ (needle ++ after)).drop i) :
    find needle (before ++ (needle ++ after)) = some before.length := by
  induction before with
  | nil =>
    cases hl : needle ++ after with
    | nil =>
      obtain ⟨rfl, -⟩ := List.append_eq_nil_iff.mp hl
      simp [find]
    | cons b l =>
      have hprefix : needle <+: b :: l := hl ▸ List.prefix_append needle after
      simp [find, hprefix]
  | cons b before ih =>
    have hhead := h 0 (by simp)
    rw [List.drop_zero, List.cons_append] at hhead
    rw [List.cons_append, find, if_neg hhead, ih fun i hi => ?_]
    · simp
    · have htail := h (i + 1) (by simpa using hi)
      rwa [List.cons_append, List.drop_succ_cons] at htail

end Texts

/-! ### Writes -/

section Writes
variable (before src : Bytes) {rest : Bytes}

/-- Writing right after what is in the block already. -/
theorem memcpy_after (h : src.length ≤ rest.length) :
    ∃ rest', memcpy (before ++ rest) before.length src = .ok (before ++ src ++ rest') ∧
      src.length + rest'.length = rest.length := by
  refine ⟨rest.drop src.length, ?_, by simp; omega⟩
  rw [memcpy, if_pos (by simpa using h), List.take_left]
  simp

theorem store_after (before : Bytes) (x : UInt8) (h : 0 < rest.length) :
    ∃ rest', store (before ++ rest) before.length x = .ok (before ++ [x] ++ rest') ∧
      1 + rest'.length = rest.length := by
  cases rest with
  | nil => simp at h
  | cons y rest =>
    refine ⟨rest, ?_, by simp; omega⟩
    rw [store_of_lt (by simp)]
    simp

/-- As much of the text as the block has room for, with its terminator. -/
theorem snprintf_spec {block text : Bytes} (h : 0 < block.length) (hnonzero : 0 ∉ text) :
    ∃ out, snprintf block block.length text = .ok out ∧ out.length = block.length ∧
      HoldsText out (text.take (block.length - 1)) := by
  have hroom : (text.take (block.length - 1) ++ [0]).length ≤ block.length := by
    simp
    omega
  obtain ⟨rest, hrest, hlength⟩ := memcpy_after [] (text.take (block.length - 1) ++ [0]) hroom
  simp only [List.nil_append, List.length_nil] at hrest hlength
  rw [snprintf, if_neg (by omega)]
  refine ⟨_, hrest, by rw [List.length_append]; omega, ?_, rest, by simp⟩
  exact fun hmem => hnonzero (List.mem_of_mem_take hmem)

/-- A text shorter than the block is formatted in full. -/
theorem snprintf_holds {block text : Bytes} (h : text.length < block.length)
    (hnonzero : 0 ∉ text) :
    ∃ out, snprintf block block.length text = .ok out ∧ out.length = block.length ∧
      HoldsText out text := by
  have htake : text.take (block.length - 1) = text := List.take_of_length_le (by omega)
  have hspec := @snprintf_spec block _ (by omega) hnonzero
  rwa [htake] at hspec

end Writes

theorem castInt_of_le {n : ℕ} (h : (n : ℤ) ≤ intMax) : castInt n = n := by
  have hmax : intMax = 2147483647 := rfl
  rw [castInt]
  omega

theorem castInt_neg {n : ℕ} (h : intMax < n) (hlt : (n : ℤ) < 4294967296) : castInt n < 0 := by
  have hmax : intMax = 2147483647 := rfl
  rw [castInt]
  omega

/-! ### Numbers -/

theorem mem_decimal {n : ℕ} {b : UInt8} (h : b ∈ decimal n) : 0x30 ≤ b.toNat ∧ b.toNat ≤ 0x39 := by
  obtain ⟨c, hc, rfl⟩ := List.mem_map.mp h
  have hdigit := Nat.isDigit_of_mem_toDigits (by decide) (by decide) hc
  simp only [Char.isDigit, ge_iff_le, Bool.and_eq_true, decide_eq_true_eq,
    UInt32.le_iff_toNat_le] at hdigit
  change 0x30 ≤ c.toNat ∧ c.toNat ≤ 0x39 at hdigit
  rw [UInt8.toNat_ofNat_of_lt' (by change c.toNat < 256; omega)]
  exact hdigit

theorem length_decimal_le {n k : ℕ} (hk : 0 < k) (h : n < 10 ^ k) : (decimal n).length ≤ k := by
  rw [decimal, List.length_map]
  exact (Nat.length_toDigits_le_iff (by decide) hk).mpr h

theorem length_decimal_pos (n : ℕ) : 0 < (decimal n).length := by
  rw [decimal, List.length_map]
  exact Nat.length_toDigits_pos

/-! ### Lists with a separator -/

theorem intercalate_snoc {α : Type*} (sep x : List α) {xs : List (List α)} (h : xs ≠ []) :
    sep.intercalate (xs ++ [x]) = sep.intercalate xs ++ sep ++ x := by
  induction xs with
  | nil => exact absurd rfl h
  | cons y xs ih =>
    cases xs with
    | nil => simp [List.intercalate_cons_cons]
    | cons z xs =>
      have hih := ih (by simp)
      simp only [List.cons_append] at hih ⊢
      simp [List.intercalate_cons_cons, hih]

end ROssFuzz.CStrings
