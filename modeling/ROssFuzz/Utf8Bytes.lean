import Mathlib.Data.Nat.Bitwise
import Mathlib.Data.List.Basic

/-!
# The bytes of a character

UTF-8 as numbers: the four forms of a character, with the bits a decoder masks out of
the leading byte and of the continuation bytes.
-/

namespace ROssFuzz.Utf8Bytes

/-- The bytes of a string of characters. -/
def encode (cs : List Char) : List UInt8 := cs.flatMap String.utf8EncodeChar

@[simp] theorem encode_nil : encode [] = [] := rfl

@[simp] theorem encode_cons (c : Char) (cs : List Char) :
    encode (c :: cs) = String.utf8EncodeChar c ++ encode cs := rfl

theorem encode_append (cs ds : List Char) : encode (cs ++ ds) = encode cs ++ encode ds := by
  simp [encode]

theorem toNat_lt (c : Char) : c.toNat < 0x110000 := by
  have h := c.valid
  simp only [UInt32.isValidChar, Nat.isValidChar] at h
  change c.val.toNat < 0x110000
  omega

/-- A byte that goes on the character before it, and what it carries. -/
theorem continuation_bits {x : ℕ} (h : x < 64) :
    (0x80 + x) &&& 0xc0 = 0x80 ∧ (0x80 + x) &&& 0x3f = x := by
  have hall : ∀ y < 64, (0x80 + y) &&& 0xc0 = 0x80 ∧ (0x80 + y) &&& 0x3f = y := by decide
  exact hall x h

/-- The bits of a leading byte below its mark. -/
theorem leading_bits {x : ℕ} :
    (x < 32 → (0xc0 + x) &&& 0x1f = x) ∧ (x < 16 → (0xe0 + x) &&& 0x0f = x) ∧
      (x < 8 → (0xf0 + x) &&& 0x07 = x) := by
  have h₂ : ∀ y < 32, (0xc0 + y) &&& 0x1f = y := by decide
  have h₃ : ∀ y < 16, (0xe0 + y) &&& 0x0f = y := by decide
  have h₄ : ∀ y < 8, (0xf0 + y) &&& 0x07 = y := by decide
  exact ⟨h₂ x, h₃ x, h₄ x⟩

/-- Six more bits. -/
theorem shift_or {v x : ℕ} (h : x < 64) : (v <<< 6) ||| x = v * 64 + x := by
  rw [← Nat.shiftLeft_add_eq_or_of_lt (by simpa using h), Nat.shiftLeft_eq]

/-- The four forms. -/
theorem utf8EncodeChar_cases (c : Char) :
    (c.toNat < 0x80 ∧ (String.utf8EncodeChar c).map UInt8.toNat = [c.toNat]) ∨
    (0x80 ≤ c.toNat ∧ c.toNat < 0x800 ∧ (String.utf8EncodeChar c).map UInt8.toNat =
      [0xc0 + c.toNat / 64, 0x80 + c.toNat % 64]) ∨
    (0x800 ≤ c.toNat ∧ c.toNat < 0x10000 ∧ (String.utf8EncodeChar c).map UInt8.toNat =
      [0xe0 + c.toNat / 4096, 0x80 + c.toNat / 64 % 64, 0x80 + c.toNat % 64]) ∨
    (0x10000 ≤ c.toNat ∧ (String.utf8EncodeChar c).map UInt8.toNat =
      [0xf0 + c.toNat / 262144, 0x80 + c.toNat / 4096 % 64, 0x80 + c.toNat / 64 % 64,
        0x80 + c.toNat % 64]) := by
  have hlt := toNat_lt c
  change c.val.toNat < 0x110000 at hlt
  change (c.val.toNat < 0x80 ∧ _ = [c.val.toNat]) ∨ _
  simp only [Char.toNat]
  generalize hv : c.val.toNat = v at hlt
  simp only [String.utf8EncodeChar, hv]
  split
  · left
    simp
    omega
  · right
    split
    · left
      simp
      omega
    · right
      split
      · left
        simp
        omega
      · right
        simp
        omega

/-- A byte below 0x80 stands in no other character's bytes. -/
theorem toNat_ne_of_mem {c : Char} {x : ℕ} (hx : x < 0x80) (hc : c.toNat ≠ x) {b : UInt8}
    (hb : b ∈ String.utf8EncodeChar c) : b.toNat ≠ x := by
  rintro rfl
  have hmem : b.toNat ∈ (String.utf8EncodeChar c).map UInt8.toNat :=
    List.mem_map.mpr ⟨b, hb, rfl⟩
  rcases utf8EncodeChar_cases c with ⟨-, h⟩ | ⟨-, -, h⟩ | ⟨-, -, h⟩ | ⟨-, h⟩ <;> rw [h] at hmem <;>
    simp only [List.mem_cons, List.not_mem_nil, or_false] at hmem <;> omega

/-! ### What is the bytes of a character -/

/-- A byte that goes on the character before it. -/
def Continuation (b : ℕ) : Prop := 0x80 ≤ b ∧ b < 0xc0

/-- The bytes a character has: no surrogate, nothing past 0x10ffff, the shortest form. -/
def CharacterBytes : List ℕ → Prop
  | [a] => a < 0x80
  | [a, b] => 0xc2 ≤ a ∧ a < 0xe0 ∧ Continuation b
  | [a, b, c] => 0xe0 ≤ a ∧ a < 0xf0 ∧ Continuation b ∧ Continuation c ∧
      (a = 0xe0 → 0xa0 ≤ b) ∧ (a = 0xed → b < 0xa0)
  | [a, b, c, d] => 0xf0 ≤ a ∧ a < 0xf5 ∧ Continuation b ∧ Continuation c ∧ Continuation d ∧
      (a = 0xf0 → 0x90 ≤ b) ∧ (a = 0xf4 → b < 0x90)
  | _ => False

theorem not_surrogate (c : Char) : c.toNat < 0xd800 ∨ 0xdfff < c.toNat := by
  have h := c.valid
  simp only [UInt32.isValidChar, Nat.isValidChar] at h
  change c.val.toNat < 0xd800 ∨ 0xdfff < c.val.toNat
  omega

theorem characterBytes_utf8EncodeChar (c : Char) :
    CharacterBytes ((String.utf8EncodeChar c).map UInt8.toNat) := by
  have hlt := toNat_lt c
  have hsurrogate := not_surrogate c
  rcases utf8EncodeChar_cases c with ⟨hc, h⟩ | ⟨hc, hc', h⟩ | ⟨hc, hc', h⟩ | ⟨hc, h⟩ <;> rw [h] <;>
    simp only [CharacterBytes, Continuation]
  · exact hc
  all_goals omega

/-- Every number that is no surrogate and not past 0x10ffff is a character's. -/
theorem exists_char {v : ℕ} (hlt : v < 0x110000) (hsurrogate : v < 0xd800 ∨ 0xdfff < v) :
    ∃ c : Char, c.toNat = v := by
  refine ⟨Char.ofNatAux v ?_, ?_⟩
  · simp only [Nat.isValidChar]
    omega
  · rfl

theorem exists_utf8EncodeChar {bs : List UInt8} (h : CharacterBytes (bs.map UInt8.toNat)) :
    ∃ c, String.utf8EncodeChar c = bs := by
  -- the number that the bytes carry
  obtain ⟨v, hlt, hsurrogate, hv⟩ : ∃ v, v < 0x110000 ∧ (v < 0xd800 ∨ 0xdfff < v) ∧
      ∀ c : Char, c.toNat = v →
        (String.utf8EncodeChar c).map UInt8.toNat = bs.map UInt8.toNat := by
    generalize bs.map UInt8.toNat = l at h ⊢
    rcases l with _ | ⟨a, _ | ⟨b, _ | ⟨d, _ | ⟨e, _ | ⟨_, _⟩⟩⟩⟩⟩
    · exact h.elim
    · simp only [CharacterBytes] at h
      refine ⟨a, by omega, by omega, fun c hc => ?_⟩
      rcases utf8EncodeChar_cases c with ⟨-, h'⟩ | ⟨hc', -⟩ | ⟨hc', -⟩ | ⟨hc', -⟩
      · rw [h', hc]
      all_goals omega
    · simp only [CharacterBytes, Continuation] at h
      refine ⟨(a - 0xc0) * 64 + (b - 0x80), by omega, by omega, fun c hc => ?_⟩
      rcases utf8EncodeChar_cases c with ⟨hc', -⟩ | ⟨-, -, h'⟩ | ⟨hc', -⟩ | ⟨hc', -⟩
      · omega
      · rw [h', hc]
        simp only [List.cons.injEq, and_true]
        omega
      all_goals omega
    · simp only [CharacterBytes, Continuation] at h
      refine ⟨(a - 0xe0) * 4096 + (b - 0x80) * 64 + (d - 0x80), by omega, by omega, fun c hc => ?_⟩
      rcases utf8EncodeChar_cases c with ⟨hc', -⟩ | ⟨-, hc', -⟩ | ⟨-, -, h'⟩ | ⟨hc', -⟩
      · omega
      · omega
      · rw [h', hc]
        simp only [List.cons.injEq, and_true]
        omega
      · omega
    · simp only [CharacterBytes, Continuation] at h
      refine ⟨(a - 0xf0) * 262144 + (b - 0x80) * 4096 + (d - 0x80) * 64 + (e - 0x80), by omega,
        by omega, fun c hc => ?_⟩
      rcases utf8EncodeChar_cases c with ⟨hc', -⟩ | ⟨-, hc', -⟩ | ⟨-, hc', -⟩ | ⟨-, h'⟩
      · omega
      · omega
      · omega
      · rw [h', hc]
        simp only [List.cons.injEq, and_true]
        omega
    · exact h.elim
  obtain ⟨c, hc⟩ := exists_char hlt hsurrogate
  exact ⟨c, List.map_injective_iff.mpr (fun _ _ => UInt8.toNat_inj.mp) (hv c hc)⟩

end ROssFuzz.Utf8Bytes
