import ROssFuzz.Utf8Bytes

/-!
# The check before the byte-code harness parses

`eval_valid_utf8` reads a buffer of a given size, here the list of its bytes; a read at or
past `size` is `none`. `||` and `&&` evaluate their right side only where C does, so a
test that would read too far and is not reached reads nothing. No object is as large as
`size_t` reaches, so an index is a natural number.
-/

namespace ROssFuzz.Utf8Validation
open Utf8Bytes

/-- `a || b`, either of which may read the buffer. -/
def either (a b : Option Bool) : Option Bool := a.bind fun x => if x then some true else b

/-- `a && b`. -/
def both (a b : Option Bool) : Option Bool := a.bind fun x => if x then b else some false

/-- `(data[i] & 0xc0) != 0x80` -/
def notContinuation (data : List UInt8) (i : ℕ) : Option Bool :=
  data[i]?.map fun b => decide (b.toNat &&& 0xc0 ≠ 0x80)

/-- `data[i] < bound` -/
def isBelow (data : List UInt8) (i bound : ℕ) : Option Bool :=
  data[i]?.map fun b => decide (b.toNat < bound)

/-- `data[i] >= bound` -/
def isAtLeast (data : List UInt8) (i bound : ℕ) : Option Bool :=
  data[i]?.map fun b => decide (bound ≤ b.toNat)

/-- Where the round goes on when `rejected` is false; `none` inside is `return 0`. -/
def nextUnless (rejected : Option Bool) (next : ℕ) : Option (Option ℕ) :=
  rejected.map fun r => if r then none else some next

/-- One round of the loop, from `c = data[i++]` on. -/
def validRound (data : List UInt8) (i : ℕ) : Option (Option ℕ) := do
  let size := data.length
  let c := (← data[i]?).toNat
  let i := i + 1
  if c < 0x80 then some (some i)
  else if c ≥ 0xc2 ∧ c ≤ 0xdf then
    nextUnless (either (some (i ≥ size)) (notContinuation data i)) (i + 1)
  else if c ≥ 0xe0 ∧ c ≤ 0xef then
    nextUnless (either (some (i + 1 ≥ size)) <| either (notContinuation data i) <|
      either (notContinuation data (i + 1)) <|
      either (both (some (c = 0xe0)) (isBelow data i 0xa0))
        (both (some (c = 0xed)) (isAtLeast data i 0xa0))) (i + 2)
  else if c ≥ 0xf0 ∧ c ≤ 0xf4 then
    nextUnless (either (some (i + 2 ≥ size)) <| either (notContinuation data i) <|
      either (notContinuation data (i + 1)) <| either (notContinuation data (i + 2)) <|
      either (both (some (c = 0xf0)) (isBelow data i 0x90))
        (both (some (c = 0xf4)) (isAtLeast data i 0x90))) (i + 3)
  else some none

/-- The loop. Every round takes a byte, so `fuel` at the size is enough. -/
def validFrom (data : List UInt8) : ℕ → ℕ → Option Bool
  | 0, i => if i < data.length then none else some true
  | fuel + 1, i =>
      if i < data.length then do
        match ← validRound data i with
        | none => some false
        | some i => validFrom data fuel i
      else some true

def evalValidUtf8 (data : List UInt8) : Option Bool := validFrom data data.length 0

/-! ### One round -/

private theorem mask_eq_iff {b : UInt8} : b.toNat &&& 0xc0 = 0x80 ↔ Continuation b.toNat := by
  have hall : ∀ x < 256, x &&& 0xc0 = 0x80 ↔ 0x80 ≤ x ∧ x < 0xc0 := by decide +kernel
  exact hall b.toNat b.toNat_lt

@[simp] private theorem either_true (b : Option Bool) : either (some true) b = some true := rfl

@[simp] private theorem either_false (b : Option Bool) : either (some false) b = b := rfl

@[simp] private theorem either_some (x y : Bool) : either (some x) (some y) = some (x || y) := by
  cases x <;> rfl

@[simp] private theorem both_some (x y : Bool) : both (some x) (some y) = some (x && y) := by
  cases x <;> rfl

/-- A round depends only on the bytes from its start on. -/
private theorem validRound_append (before rest : List UInt8) :
    validRound (before ++ rest) before.length =
      (validRound rest 0).map (Option.map (before.length + ·)) := by
  have hread (k : ℕ) : (before ++ rest)[before.length + k]? = rest[k]? := by
    rw [List.getElem?_append_right (Nat.le_add_right ..), Nat.add_sub_cancel_left]
  have hend (k : ℕ) : before.length + k ≥ before.length + rest.length ↔ k ≥ rest.length := by
    omega
  have hnext (rejected : Option Bool) (k : ℕ) : nextUnless rejected (before.length + k) =
      (nextUnless rejected k).map (Option.map (before.length + ·)) := by
    rcases rejected with _ | _ | _ <;> rfl
  have hstart : (before ++ rest)[before.length]? = rest[0]? := hread 0
  simp only [validRound, notContinuation, isBelow, isAtLeast, hstart, List.length_append,
    Nat.add_assoc, Nat.zero_add, hread, hend, hnext]
  rcases rest[0]? with _ | c
  · rfl
  · simp only [Option.bind_eq_bind, Option.bind_some]
    split_ifs <;> rfl

/-- A character's bytes are passed over, whatever follows them. -/
private theorem validRound_character {bytes : List UInt8} (rest : List UInt8)
    (h : CharacterBytes (bytes.map UInt8.toNat)) :
    validRound (bytes ++ rest) 0 = some (some bytes.length) := by
  rcases bytes with _ | ⟨a, _ | ⟨b, _ | ⟨c, _ | ⟨d, _ | ⟨_, _⟩⟩⟩⟩⟩
  · exact h.elim
  · simp only [List.map_cons, List.map_nil, CharacterBytes] at h
    simp [validRound, h]
  · simp only [List.map_cons, List.map_nil, CharacterBytes, ← mask_eq_iff] at h
    have hlead : ¬ a.toNat < 0x80 ∧ a.toNat ≤ 0xdf := by omega
    simp [validRound, nextUnless, notContinuation, h, hlead]
  · simp only [List.map_cons, List.map_nil, CharacterBytes, ← mask_eq_iff] at h
    have hlead : ¬ a.toNat < 0x80 ∧ ¬ a.toNat ≤ 0xdf ∧ a.toNat ≤ 0xef := by omega
    have hrow : ¬ (a.toNat = 0xe0 ∧ b.toNat < 0xa0 ∨ a.toNat = 0xed ∧ 0xa0 ≤ b.toNat) := by omega
    simp [validRound, nextUnless, notContinuation, isBelow, isAtLeast, h, hlead, hrow]
  · simp only [List.map_cons, List.map_nil, CharacterBytes, ← mask_eq_iff] at h
    have hlead : ¬ a.toNat < 0x80 ∧ ¬ a.toNat ≤ 0xdf ∧ ¬ a.toNat ≤ 0xef ∧ a.toNat ≤ 0xf4 := by
      omega
    have hrow : ¬ (a.toNat = 0xf0 ∧ b.toNat < 0x90 ∨ a.toNat = 0xf4 ∧ 0x90 ≤ b.toNat) := by omega
    simp [validRound, nextUnless, notContinuation, isBelow, isAtLeast, h, hlead, hrow]
  · exact h.elim

private theorem either_eq_false_iff {a b : Option Bool} :
    either a b = some false ↔ a = some false ∧ b = some false := by
  rcases a with _ | _ | _ <;> simp [either]

private theorem both_eq_false_iff {x : Bool} {b : Option Bool} :
    both (some x) b = some false ↔ (x = true → b = some false) := by
  cases x <;> simp [both]

private theorem nextUnless_eq_some_iff {rejected : Option Bool} {next k : ℕ} :
    nextUnless rejected next = some (some k) ↔ rejected = some false ∧ next = k := by
  rcases rejected with _ | _ | _ <;> simp [nextUnless]

private theorem notContinuation_eq_false_iff {data : List UInt8} {i : ℕ} :
    notContinuation data i = some false ↔ ∃ b, data[i]? = some b ∧ Continuation b.toNat := by
  simp [notContinuation, mask_eq_iff]

/-- What a round passes over is a character's bytes. -/
private theorem validRound_sound {data : List UInt8} {k : ℕ}
    (h : validRound data 0 = some (some k)) :
    ∃ bytes rest, data = bytes ++ rest ∧ CharacterBytes (bytes.map UInt8.toNat) ∧
      k = bytes.length := by
  rcases data with _ | ⟨a, data⟩
  · simp [validRound] at h
  simp only [validRound, List.getElem?_cons_zero, Option.bind_eq_bind, Option.bind_some] at h
  split_ifs at h with h1 h2 h3 h4
  · cases h
    exact ⟨[a], data, rfl, h1, rfl⟩
  · simp only [nextUnless_eq_some_iff, either_eq_false_iff, notContinuation_eq_false_iff] at h
    obtain ⟨⟨-, b, hb, hb'⟩, rfl⟩ := h
    rcases data with _ | ⟨_, rest⟩
    · cases hb
    cases hb
    refine ⟨[a, b], rest, rfl, ⟨h2.1, ?_, hb'⟩, rfl⟩
    omega
  · simp only [nextUnless_eq_some_iff, either_eq_false_iff, notContinuation_eq_false_iff,
      both_eq_false_iff, isBelow, isAtLeast, decide_eq_true_eq] at h
    obtain ⟨⟨-, ⟨b, hb, hb'⟩, ⟨c, hc, hc'⟩, hlow, hhigh⟩, rfl⟩ := h
    rcases data with _ | ⟨_, _ | ⟨_, rest⟩⟩
    · cases hb
    · cases hc
    cases hb
    cases hc
    simp only [Nat.zero_add, List.getElem?_cons_succ, List.getElem?_cons_zero, Option.map_some,
      Option.some.injEq, decide_eq_false_iff_not] at hlow hhigh
    refine ⟨[a, b, c], rest, rfl, ⟨h3.1, ?_, hb', hc', ?_, ?_⟩, rfl⟩ <;> omega
  · simp only [nextUnless_eq_some_iff, either_eq_false_iff, notContinuation_eq_false_iff,
      both_eq_false_iff, isBelow, isAtLeast, decide_eq_true_eq] at h
    obtain ⟨⟨-, ⟨b, hb, hb'⟩, ⟨c, hc, hc'⟩, ⟨d, hd, hd'⟩, hlow, hhigh⟩, rfl⟩ := h
    rcases data with _ | ⟨_, _ | ⟨_, _ | ⟨_, rest⟩⟩⟩
    · cases hb
    · cases hc
    · cases hd
    cases hb
    cases hc
    cases hd
    simp only [Nat.zero_add, List.getElem?_cons_succ, List.getElem?_cons_zero, Option.map_some,
      Option.some.injEq, decide_eq_false_iff_not] at hlow hhigh
    refine ⟨[a, b, c, d], rest, rfl, ⟨h4.1, ?_, hb', hc', hd', ?_, ?_⟩, rfl⟩ <;> omega
  · cases h

/-! ### No read past the end -/

private theorem either_isSome {a b : Option Bool} (ha : a.isSome) (hb : b.isSome) :
    (either a b).isSome := by
  rcases a with _ | _ | _
  · exact ha
  · exact hb
  · rfl

private theorem both_isSome {x : Bool} {b : Option Bool} (hb : b.isSome) :
    (both (some x) b).isSome := by
  cases x
  · rfl
  · exact hb

/-- The test against the size stands in front of the reads. -/
private theorem nextUnless_isSome {data : List UInt8} {i : ℕ} {b : Option Bool} {next : ℕ}
    (hb : i < data.length → b.isSome) :
    (nextUnless (either (some (i ≥ data.length)) b) next).isSome := by
  rw [nextUnless, Option.isSome_map]
  by_cases hi : i < data.length
  · exact either_isSome rfl (hb hi)
  · rw [decide_eq_true (Nat.not_lt.mp hi)]
    rfl

private theorem notContinuation_isSome {data : List UInt8} {i : ℕ} (h : i < data.length) :
    (notContinuation data i).isSome := by
  simp [notContinuation, h]

private theorem validRound_isSome {data : List UInt8} (h : 0 < data.length) :
    (validRound data 0).isSome := by
  obtain ⟨a, rest, rfl⟩ := List.exists_cons_of_length_pos h
  simp only [validRound, List.getElem?_cons_zero, Option.bind_eq_bind, Option.bind_some]
  split_ifs
  · rfl
  · exact nextUnless_isSome notContinuation_isSome
  · refine nextUnless_isSome fun hi => ?_
    have hread : 0 < rest.length := by
      simp only [List.length_cons] at hi
      omega
    apply either_isSome (notContinuation_isSome (by omega))
    apply either_isSome (notContinuation_isSome hi)
    apply either_isSome <;> apply both_isSome <;> simpa [isBelow, isAtLeast] using hread
  · refine nextUnless_isSome fun hi => ?_
    have hread : 0 < rest.length := by
      simp only [List.length_cons] at hi
      omega
    apply either_isSome (notContinuation_isSome (by omega))
    apply either_isSome (notContinuation_isSome (by omega))
    apply either_isSome (notContinuation_isSome hi)
    apply either_isSome <;> apply both_isSome <;> simpa [isBelow, isAtLeast] using hread
  · rfl

/-! ### The whole buffer -/

/-- A text split at its first character. -/
private theorem exists_encode_iff {c : Char} {rest : List UInt8} :
    (∃ cs, String.utf8EncodeChar c ++ rest = encode cs) ↔ ∃ cs, rest = encode cs := by
  constructor
  · rintro ⟨cs, h⟩
    have hround := validRound_character rest (characterBytes_utf8EncodeChar c)
    rcases cs with _ | ⟨c', cs⟩
    · rw [h] at hround
      cases hround
    · rw [h, encode_cons, validRound_character _ (characterBytes_utf8EncodeChar c')] at hround
      simp only [Option.some.injEq] at hround
      exact ⟨cs, (List.append_inj h hround.symm).2⟩
  · rintro ⟨cs, rfl⟩
    exact ⟨c :: cs, rfl⟩

/-- The loop from the end of `before` on: only the bytes from there count. -/
private theorem validFrom_append (before rest : List UInt8) {fuel : ℕ}
    (h : rest.length ≤ fuel) :
    ∃ valid, validFrom (before ++ rest) fuel before.length = some valid ∧
      (valid = true ↔ ∃ cs, rest = encode cs) := by
  induction fuel generalizing before rest with
  | zero =>
    obtain rfl := List.length_eq_zero_iff.mp (Nat.le_zero.mp h)
    exact ⟨true, by simp [validFrom], by simpa using ⟨[], encode_nil.symm⟩⟩
  | succ fuel ih =>
    by_cases hrest : 0 < rest.length
    swap
    · obtain rfl := List.length_eq_zero_iff.mp (Nat.eq_zero_of_not_pos hrest)
      exact ⟨true, by simp [validFrom], by simpa using ⟨[], encode_nil.symm⟩⟩
    obtain ⟨next, hnext⟩ := Option.isSome_iff_exists.mp (validRound_isSome hrest)
    have hround := validRound_append before rest
    rw [hnext] at hround
    have hlt : before.length < (before ++ rest).length := by
      rw [List.length_append]
      omega
    simp only [validFrom, hlt, if_true, hround]
    rcases next with _ | k
    · -- no character begins here
      refine ⟨false, rfl, iff_of_false Bool.false_ne_true ?_⟩
      rintro ⟨_ | ⟨c, cs⟩, rfl⟩
      · exact absurd hrest (lt_irrefl 0)
      · rw [encode_cons, validRound_character _ (characterBytes_utf8EncodeChar c)] at hnext
        cases hnext
    · obtain ⟨bytes, rest, rfl, hbytes, rfl⟩ := validRound_sound hnext
      obtain ⟨c, rfl⟩ := exists_utf8EncodeChar hbytes
      have hpos := c.utf8Size_pos
      rw [List.length_append, String.length_utf8EncodeChar] at h
      rw [exists_encode_iff, ← List.append_assoc]
      have hgo := ih (before ++ String.utf8EncodeChar c) rest (by omega)
      rw [List.length_append] at hgo
      exact hgo

/-- The buffer is accepted exactly when it is the bytes of some characters; the loop comes to
its end and reads nothing outside. -/
theorem evalValidUtf8_iff (data : List UInt8) :
    ∃ valid, evalValidUtf8 data = some valid ∧ (valid = true ↔ ∃ cs : List Char, data = encode cs) :=
  validFrom_append [] data le_rfl

-- overlong, a surrogate, past the last character, cut short
example : [[0xc0, 0x80], [0xed, 0xa0, 0x80], [0xf4, 0x90, 0x80, 0x80], [0xe2, 0x82]].map
    evalValidUtf8 = List.replicate 4 (some false) := by decide

end ROssFuzz.Utf8Validation
