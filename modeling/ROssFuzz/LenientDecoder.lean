import ROssFuzz.Utf8Bytes
import ROssFuzz.CStrings
import ROssFuzz.DoubleIntegers

/-!
# The lenient decoder on any bytes

`fuzz_chartr_table_excessive` with the memory that it touches: the bytes of the string and no
others, and the arrays `cps` and `lens`, which outlive a round of the loop, so that an entry
remembers the round that wrote it. A read outside the string and a use of an entry from an
earlier round are faults. The count is a `double`.
-/

namespace ROssFuzz.LenientDecoder
open CheckedOperations CStrings DoubleIntegers

/-- `FUZZ_MAX_CHARTR_TABLE`. -/
def fuzzMaxChartrTable : ℕ := 2000000

/-- The loop of `fuzz_decode_utf8` over the bytes from `p + i`, `k` of them left. -/
def decodeRest (spec : Bytes) (p c : ℕ) : ℕ → ℕ → ℕ → Except Stop (ℕ × ℕ)
  | 0, i, v => .ok (v, i)
  | k + 1, i, v => do
      let b ← load spec (p + i)
      -- not a sequence: one entry per byte
      if b.toNat &&& 0xc0 ≠ 0x80 then .ok (c, 1)
      else decodeRest spec p c k (i + 1) ((v <<< 6) ||| (b.toNat &&& 0x3f))

/-- `fuzz_decode_utf8`: the character and the bytes it takes. -/
def fuzzDecodeUtf8 (spec : Bytes) (p : ℕ) : Except Stop (ℕ × ℕ) := do
  let b ← load spec p
  let c := b.toNat
  let len := if c < 0x80 then 1 else if c < 0xe0 then 2 else if c < 0xf0 then 3 else 4
  let v := if len = 1 then c else c &&& (0x7f >>> len)
  decodeRest spec p c (len - 1) 1 v

/-- An array of the stack frame: each entry with the round that wrote it, if any has. -/
abbrev Entries := List (Option (ℕ × ℕ))

/-- `cps` and `lens`. -/
structure Arrays where
  cps : Entries
  lens : Entries

def Arrays.uninitialised : Arrays := ⟨List.replicate 4 none, List.replicate 4 none⟩

/-- An entry that this round has written. -/
def use (round : ℕ) (a : Entries) (k : ℕ) : Except Stop ℕ := do
  match ← load a k with
  | some (writer, x) => if writer = round then .ok x else .error .fault
  | none => .error .fault

/-- The loop that decodes up to three characters, with `left` of them left: `k` and the
arrays after it. -/
def lookAhead (spec : Bytes) (n round : ℕ) : ℕ → ℕ → ℕ → Arrays → Except Stop (ℕ × Arrays)
  | 0, k, _, a => .ok (k, a)
  | left + 1, k, j, a =>
      if j < n then do
        let (cp, len) ← fuzzDecodeUtf8 spec j
        let cps ← store a.cps k (some (round, cp))
        let lens ← store a.lens k (some (round, len))
        lookAhead spec n round left (k + 1) (j + (← use round lens k)) ⟨cps, lens⟩
      else .ok (k, a)

/-- The sum of two doubles. -/
def add (x y : ℕ) : Except Stop ℕ :=
  match nearest (x + y) with
  | some z => .ok z
  | none => .error .fault

/-- A round of the loop: where it begins and goes on, what it has counted, as a number, and
`entries` as it is compared. -/
structure Round where
  start : ℕ
  next : ℕ
  declared : ℕ
  entries : ℕ
  deriving DecidableEq

/-- The body of the loop up to the comparison. -/
def body (spec : Bytes) (n round i entries : ℕ) (a : Arrays) : Except Stop (Round × Arrays) := do
  let (k, a) ← lookAhead spec n round 3 0 i a
  let isRange ← if k = 3 then do .ok (decide ((← use round a.cps 1) = '-'.toNat)) else .ok false
  if isRange then do
    let first ← use round a.cps 0
    let last ← use round a.cps 2
    let entries' ← if last ≥ first then do add entries (← add (last - first) 1) else .ok entries
    let len := (← use round a.lens 0) + (← use round a.lens 1) + (← use round a.lens 2)
    .ok (⟨i, i + len, if last ≥ first then last - first + 1 else 0, entries'⟩, a)
  else do
    let entries' ← add entries 1
    .ok (⟨i, i + (← use round a.lens 0), 1, entries'⟩, a)

/-- The loop: its rounds and what it returns, `none` if `fuel` rounds are not enough. -/
def scan (spec : Bytes) (n : ℕ) :
    ℕ → ℕ → ℕ → ℕ → Arrays → Except Stop (Option (List Round × Bool))
  | 0, _, i, _, _ => .ok (if i < n then none else some ([], false))
  | fuel + 1, round, i, entries, a =>
      if i < n then do
        let (r, a) ← body spec n round i entries a
        if r.entries > fuzzMaxChartrTable then .ok (some ([r], true))
        else do
          let rest ← scan spec n fuel (round + 1) r.next r.entries a
          .ok (rest.map fun p => (r :: p.1, p.2))
      else .ok (some ([], false))

/-- The rounds of `fuzz_chartr_table_excessive`, and what it returns. -/
def chartrTableRounds (spec : Bytes) (fuel : ℕ) :
    Except Stop (Option (List Round × Bool)) := do
  let n ← strlen spec
  scan spec n fuel 0 0 0 .uninitialised

/-- What it returns within as many rounds as bytes, unless there is a fault. -/
def fuzzChartrTableExcessive (spec : Bytes) : Option Bool :=
  match chartrTableRounds spec spec.length with
  | .ok (some (_, excessive)) => some excessive
  | _ => none

/-! ### The decoder -/

section Decoder
variable {text : Bytes}

/-- The terminator is no continuation byte, so every byte that the loop takes leaves one more
to read. -/
private theorem decodeRest_spec {p c : ℕ} (hc : c < 0x100) (k i v : ℕ) (hi : 0 < i)
    (hle : p + i ≤ text.length) (hv : (v + 1) * 64 ^ k ≤ 0x200000) :
    ∃ cp len, decodeRest (text ++ [0]) p c k i v = .ok (cp, len) ∧ 0 < len ∧
      p + len ≤ text.length ∧ cp < 0x200000 := by
  induction k generalizing i v with
  | zero => exact ⟨v, i, rfl, hi, hle, by omega⟩
  | succ k ih =>
    have hlt : p + i < (text ++ [0]).length := by simp; omega
    generalize hb : (text ++ [0])[p + i] = b
    rw [decodeRest, load_of_lt hlt, hb]
    simp only [bind, Except.bind]
    by_cases hcont : b.toNat &&& 0xc0 ≠ 0x80
    · rw [if_pos hcont]
      exact ⟨c, 1, rfl, by omega, by omega, by omega⟩
    · rw [if_neg hcont]
      have hne : p + i ≠ text.length := by
        rintro heq
        have hzero : b = 0 := by simp [← hb, heq]
        simp [hzero] at hcont
      have hx : b.toNat &&& 0x3f < 2 ^ 6 := Nat.and_lt_two_pow _ (by decide)
      refine ih (i + 1) _ (by omega) (by omega) ?_
      rw [Utf8Bytes.shift_or hx]
      calc (v * 64 + (b.toNat &&& 0x3f) + 1) * 64 ^ k
        _ ≤ ((v + 1) * 64) * 64 ^ k := Nat.mul_le_mul_right _ (by omega)
        _ = (v + 1) * 64 ^ (k + 1) := by rw [Nat.pow_succ, Nat.mul_assoc, Nat.mul_comm 64]
        _ ≤ 0x200000 := hv

/-- The decoder at a byte of the string takes at least that one, and none past the end. -/
theorem fuzzDecodeUtf8_spec {p : ℕ} (hp : p < text.length) :
    ∃ cp len, fuzzDecodeUtf8 (text ++ [0]) p = .ok (cp, len) ∧ 0 < len ∧
      p + len ≤ text.length ∧ cp < 0x200000 := by
  have hlt : p < (text ++ [0]).length := by simp; omega
  rw [fuzzDecodeUtf8, load_of_lt hlt]
  generalize (text ++ [0])[p] = b
  have hb : b.toNat < 0x100 := b.toNat_lt
  refine decodeRest_spec hb _ 1 _ (by omega) (by omega) ?_
  by_cases h₁ : b.toNat < 0x80
  · simp only [if_pos h₁, if_true]
    omega
  by_cases h₂ : b.toNat < 0xe0
  · have hbits : b.toNat &&& 0x1f < 2 ^ 5 := Nat.and_lt_two_pow _ (by decide)
    simp [h₁, h₂]
    omega
  by_cases h₃ : b.toNat < 0xf0
  · have hbits : b.toNat &&& 0x0f < 2 ^ 4 := Nat.and_lt_two_pow _ (by decide)
    simp [h₁, h₂, h₃]
    omega
  · have hbits : b.toNat &&& 0x07 < 2 ^ 3 := Nat.and_lt_two_pow _ (by decide)
    simp [h₁, h₂, h₃]
    omega

/-- A sequence that the terminator cuts short. -/
example : fuzzDecodeUtf8 [0xf0, 0x80, 0x80, 0] 0 = .ok (0xf0, 1) := rfl

end Decoder

/-! ### The arrays -/

/-- What a round has written so far: the characters and lengths it has decoded. -/
structure Written (round : ℕ) (a : Arrays) (ds : List (ℕ × ℕ)) : Prop where
  cps_length : a.cps.length = 4
  lens_length : a.lens.length = 4
  cps : a.cps.take ds.length = ds.map fun d => some (round, d.1)
  lens : a.lens.take ds.length = ds.map fun d => some (round, d.2)

section Arrays
variable {round : ℕ} {a : Arrays} {ds : List (ℕ × ℕ)}

theorem Written.nil (hcps : a.cps.length = 4) (hlens : a.lens.length = 4) : Written round a [] :=
  ⟨hcps, hlens, rfl, rfl⟩

private theorem take_set {α : Type} (l : List α) {k : ℕ} (x : α) (h : k < l.length) :
    (l.set k x).take (k + 1) = l.take k ++ [x] := by
  rw [List.take_succ_eq_append_getElem (by simpa using h), List.take_set_of_le (le_refl k)]
  simp

theorem Written.snoc (h : Written round a ds) (hroom : ds.length < 4) (d : ℕ × ℕ) :
    Written round ⟨a.cps.set ds.length (some (round, d.1)),
      a.lens.set ds.length (some (round, d.2))⟩ (ds ++ [d]) := by
  refine ⟨by simpa using h.cps_length, by simpa using h.lens_length, ?_, ?_⟩
  · rw [List.length_append, List.length_singleton, take_set _ _ (by rw [h.cps_length]; omega),
      h.cps]
    simp
  · rw [List.length_append, List.length_singleton, take_set _ _ (by rw [h.lens_length]; omega),
      h.lens]
    simp

private theorem use_of_take {entries : Entries} {f : ℕ × ℕ → ℕ}
    (h : entries.take ds.length = ds.map fun d => some (round, f d)) {k : ℕ}
    (hk : k < ds.length) : use round entries k = .ok (f ds[k]) := by
  have hget : entries[k]? = some (some (round, f ds[k])) := by
    rw [← List.getElem?_take_of_lt hk, h]
    simp [hk]
  simp [use, load_eq_ok_iff.mpr hget, bind, Except.bind]

theorem Written.use_cps (h : Written round a ds) {k : ℕ} (hk : k < ds.length) :
    use round a.cps k = .ok ds[k].1 := use_of_take h.cps hk

theorem Written.use_lens (h : Written round a ds) {k : ℕ} (hk : k < ds.length) :
    use round a.lens k = .ok ds[k].2 := use_of_take h.lens hk

end Arrays

/-! ### A round -/

section Round
variable {text : Bytes} {round : ℕ} {a : Arrays}

/-- The characters from `j` on, as they are decoded. -/
def Decodes (text : Bytes) : ℕ → List (ℕ × ℕ) → Prop
  | _, [] => True
  | j, d :: ds => fuzzDecodeUtf8 (text ++ [0]) j = .ok d ∧ Decodes text (j + d.2) ds

/-- What a look-ahead at `j` decodes: `left` characters, or as many as there are. -/
structure Ahead (text : Bytes) (left j : ℕ) (ds : List (ℕ × ℕ)) : Prop where
  decodes : Decodes text j ds
  length_le : ds.length ≤ left
  ended : ds.length < left → j + (ds.map Prod.snd).sum = text.length
  within : j + (ds.map Prod.snd).sum ≤ text.length
  small : ∀ d ∈ ds, 0 < d.2 ∧ d.1 < 0x200000

/-- The look-ahead decodes what is there and fills the arrays with it. -/
theorem lookAhead_spec (left j : ℕ) (ds : List (ℕ × ℕ))
    (hw : Written round a ds) (hroom : ds.length + left < 4) (hj : j ≤ text.length) :
    ∃ more a', lookAhead (text ++ [0]) text.length round left ds.length j a =
        .ok (ds.length + more.length, a') ∧ Written round a' (ds ++ more) ∧
      Ahead text left j more := by
  induction left generalizing j a ds with
  | zero =>
    exact ⟨[], a, rfl, by simpa using hw, trivial, by simp, by simp, by simpa using hj, by simp⟩
  | succ left ih =>
    by_cases hlt : j < text.length
    · obtain ⟨cp, len, hdecode, hpos, hend, hcp⟩ := fuzzDecodeUtf8_spec hlt
      have hw' := hw.snoc (by omega) (cp, len)
      have huse : use round (a.lens.set ds.length (some (round, len))) ds.length = .ok len := by
        have hread := @Written.use_lens _ _ _ hw' ds.length (by simp)
        rwa [List.getElem_concat_length rfl] at hread
      obtain ⟨more, a', hrun, hwritten, hmore⟩ :=
        ih (j + len) (ds ++ [(cp, len)]) hw' (by simp; omega) hend
      have hended := hmore.ended
      have hwithin := hmore.within
      refine ⟨(cp, len) :: more, a', ?_, by simpa using hwritten, ⟨hdecode, hmore.decodes⟩,
        by simpa using hmore.length_le, ?_, ?_, ?_⟩
      · rw [List.length_append, List.length_singleton] at hrun
        rw [lookAhead, if_pos hlt, hdecode]
        simp only [bind, Except.bind, store_of_lt (show ds.length < a.cps.length by
          rw [hw.cps_length]; omega), store_of_lt (show ds.length < a.lens.length by
          rw [hw.lens_length]; omega), huse]
        rw [hrun, List.length_cons]
        congr 2
        omega
      · rw [List.length_cons, List.map_cons, List.sum_cons]
        omega
      · rw [List.map_cons, List.sum_cons]
        omega
      · intro d hd
        rcases List.mem_cons.mp hd with rfl | hd
        · exact ⟨hpos, hcp⟩
        · exact hmore.small d hd
    · refine ⟨[], a, ?_, by simpa using hw, trivial, by simp, fun _ => ?_, by simpa using hj, by simp⟩
      · rw [lookAhead, if_neg hlt]
        rfl
      · simp only [List.map_nil, List.sum_nil]
        omega

/-- A round that begins at `i` with `count` entries behind it: it takes at least one byte and
none past the end, and its double is the number of the entries. -/
structure Sound (n i count : ℕ) (r : Round) : Prop where
  start : r.start = i
  advances : i < r.next
  within : r.next ≤ n
  counted : r.entries = count + r.declared
  exact_ : r.entries < 0x20000000000000

theorem add_exact {x y : ℕ} (h : x + y < 0x20000000000000) : add x y = .ok (x + y) := by
  have hnearest : nearest (x + y) = some (x + y) := nearest_of_lt h
  unfold add
  rw [hnearest]

/-- The comparison keeps the count far below 2⁵³. -/
private theorem count_lt {entries x : ℕ} (he : entries ≤ fuzzMaxChartrTable) (hx : x ≤ 0x200000) :
    entries + x < 0x20000000000000 := by
  have hmax : fuzzMaxChartrTable = 2000000 := rfl
  omega

section Body
variable {spec : Bytes} {n i entries : ℕ} {a' : Arrays} {d : ℕ × ℕ}

/-- Three characters with a dash between: all three lengths are used. -/
theorem body_range {e f : ℕ × ℕ}
    (hrun : lookAhead spec n round 3 0 i a = .ok (3, a')) (hw : Written round a' [d, e, f])
    (hdash : e.1 = '-'.toNat) (hsmall : f.1 < 0x200000) (he : entries ≤ fuzzMaxChartrTable) :
    body spec n round i entries a = .ok (⟨i, i + (d.2 + e.2 + f.2),
      if f.1 ≥ d.1 then f.1 - d.1 + 1 else 0,
      if f.1 ≥ d.1 then entries + (f.1 - d.1 + 1) else entries⟩, a') := by
  have hcps₀ : use round a'.cps 0 = .ok d.1 := hw.use_cps (by simp)
  have hcps₁ : use round a'.cps 1 = .ok e.1 := hw.use_cps (by simp)
  have hcps₂ : use round a'.cps 2 = .ok f.1 := hw.use_cps (by simp)
  have hlens₀ : use round a'.lens 0 = .ok d.2 := hw.use_lens (by simp)
  have hlens₁ : use round a'.lens 1 = .ok e.2 := hw.use_lens (by simp)
  have hlens₂ : use round a'.lens 2 = .ok f.2 := hw.use_lens (by simp)
  have hwidth : add (f.1 - d.1) 1 = .ok (f.1 - d.1 + 1) := add_exact (by omega)
  have hadd : add entries (f.1 - d.1 + 1) = .ok (entries + (f.1 - d.1 + 1)) :=
    add_exact (count_lt he (by omega))
  simp only [body, hrun, bind, Except.bind, if_true, hcps₀, hcps₁, hcps₂, hlens₀, hlens₁, hlens₂,
    hdash, decide_true, hwidth, hadd]
  split <;> rfl

/-- Anything else: the first length is used. -/
theorem body_char {ds : List (ℕ × ℕ)}
    (hrun : lookAhead spec n round 3 0 i a = .ok (ds.length + 1, a'))
    (hw : Written round a' (d :: ds)) (hdash : ∀ e f, ds = [e, f] → e.1 ≠ '-'.toNat)
    (he : entries ≤ fuzzMaxChartrTable) :
    body spec n round i entries a = .ok (⟨i, i + d.2, 1, entries + 1⟩, a') := by
  have hlens₀ : use round a'.lens 0 = .ok d.2 := hw.use_lens (by simp)
  have hadd : add entries 1 = .ok (entries + 1) := add_exact (count_lt he (by decide))
  by_cases hthree : ds.length + 1 = 3
  · obtain ⟨e, f, rfl⟩ : ∃ e f, ds = [e, f] := List.length_eq_two.mp (by omega)
    have hcps₁ : use round a'.cps 1 = .ok e.1 := hw.use_cps (by simp)
    simp only [body, hrun, bind, Except.bind, if_pos hthree, hcps₁, decide_eq_false (hdash e f rfl),
      hadd, hlens₀]
    rfl
  · simp only [body, hrun, bind, Except.bind, if_neg hthree, hadd, hlens₀]
    rfl

end Body

/-- A round that begins in the string uses only what it has written. -/
theorem body_spec {i entries : ℕ} (hcps : a.cps.length = 4) (hlens : a.lens.length = 4)
    (hi : i < text.length) (he : entries ≤ fuzzMaxChartrTable) :
    ∃ r a', body (text ++ [0]) text.length round i entries a = .ok (r, a') ∧
      a'.cps.length = 4 ∧ a'.lens.length = 4 ∧ Sound text.length i entries r := by
  obtain ⟨ds, a', hrun, hw, hahead⟩ :=
    @lookAhead_spec text round a 3 i [] (.nil hcps hlens) (by simp) hi.le
  simp only [List.nil_append, List.length_nil, Nat.zero_add] at hrun hw
  rcases ds with _ | ⟨d, ds⟩
  · have hend : i = text.length := by simpa using hahead.ended (by simp)
    exact absurd hi (by omega)
  have hd := (hahead.small d List.mem_cons_self).1
  have hwithin := hahead.within
  rw [List.map_cons, List.sum_cons] at hwithin
  by_cases hrange : ∃ e f, ds = [e, f] ∧ e.1 = '-'.toNat
  · obtain ⟨e, f, rfl, hdash⟩ := hrange
    have hf := (hahead.small f (by simp)).2
    simp only [List.map_cons, List.map_nil, List.sum_cons, List.sum_nil] at hwithin
    refine ⟨_, a', body_range hrun hw hdash hf he, hw.cps_length, hw.lens_length,
      rfl, ?_, ?_, ?_, ?_⟩
    · exact Nat.lt_add_of_pos_right (by omega)
    · change i + (d.2 + e.2 + f.2) ≤ text.length
      omega
    · split <;> rfl
    · change (if f.1 ≥ d.1 then entries + (f.1 - d.1 + 1) else entries) < 0x20000000000000
      split
      · exact count_lt he (by omega)
      · exact count_lt he (Nat.zero_le _)
  · have hdash : ∀ e f, ds = [e, f] → e.1 ≠ '-'.toNat := fun e f hds h => hrange ⟨e, f, hds, h⟩
    refine ⟨_, a', body_char hrun hw hdash he, hw.cps_length, hw.lens_length,
      rfl, Nat.lt_add_of_pos_right hd, ?_, rfl, count_lt he (by decide)⟩
    change i + d.2 ≤ text.length
    omega

end Round

/-! ### The run -/

/-- Rounds from `i` on with `count` entries behind them, each where the one before it goes
on. -/
def Steps (n : ℕ) : ℕ → ℕ → List Round → Prop
  | _, _, [] => True
  | i, count, r :: rounds => Sound n i count r ∧ Steps n r.next r.entries rounds

section Run
variable {text : Bytes}

/-- The bytes left bound the rounds left. -/
theorem scan_spec (m : ℕ) {round i entries : ℕ} {a : Arrays} (hcps : a.cps.length = 4)
    (hlens : a.lens.length = 4) (hm : text.length - i ≤ m) (he : entries ≤ fuzzMaxChartrTable) :
    ∃ rounds result, Steps text.length i entries rounds ∧ ∀ fuel, m ≤ fuel →
      scan (text ++ [0]) text.length fuel round i entries a = .ok (some (rounds, result)) := by
  induction m generalizing round i entries a with
  | zero =>
    have hend : ¬ i < text.length := by omega
    refine ⟨[], false, trivial, fun fuel _ => ?_⟩
    cases fuel <;> simp [scan, hend]
  | succ m ih =>
    by_cases hi : i < text.length
    · obtain ⟨r, a', hbody, hcps', hlens', hsound⟩ := @body_spec text round a i entries hcps hlens hi he
      have hadvances := hsound.advances
      by_cases hover : r.entries > fuzzMaxChartrTable
      · refine ⟨[r], true, ⟨hsound, trivial⟩, fun fuel hfuel => ?_⟩
        obtain ⟨fuel, rfl⟩ := Nat.exists_eq_add_of_le' hfuel
        simp [scan, hi, hbody, hover, bind, Except.bind]
      · obtain ⟨rounds, result, hsteps, hrun⟩ :=
          @ih (round + 1) r.next r.entries a' hcps' hlens' (by omega) (Nat.le_of_not_lt hover)
        refine ⟨r :: rounds, result, ⟨hsound, hsteps⟩, fun fuel hfuel => ?_⟩
        obtain ⟨fuel, rfl⟩ := Nat.exists_eq_add_of_le' hfuel
        simp [scan, hi, hbody, hover, bind, Except.bind, hrun (fuel + m) (by omega)]
    · refine ⟨[], false, trivial, fun fuel _ => ?_⟩
      cases fuel <;> simp [scan, hi]

/-- The guard returns what the scan does. -/
theorem fuzzChartrTableExcessive_of_scan {excessive : Bool} (hnonzero : 0 ∉ text)
    (h : ∀ fuel, text.length ≤ fuel → ∃ rounds,
      scan (text ++ [0]) text.length fuel 0 0 0 .uninitialised = .ok (some (rounds, excessive))) :
    fuzzChartrTableExcessive (text ++ [0]) = some excessive := by
  have hholds : HoldsText (text ++ [0]) text := ⟨hnonzero, [], rfl⟩
  obtain ⟨rounds, hscan⟩ := h (text ++ [0]).length (by simp)
  have hrounds : chartrTableRounds (text ++ [0]) (text ++ [0]).length =
      .ok (some (rounds, excessive)) := by
    rw [chartrTableRounds, hholds.strlen]
    exact hscan
  rw [fuzzChartrTableExcessive, hrounds]

end Run

/-- Whatever the bytes are, no read leaves the string and no entry is used that its round has
not written. Every round goes on inside the string, its count is exact, and with as many
rounds as bytes the guard decides. -/
theorem fuzzChartrTableExcessive_safe (spec : CString) :
    ∃ rounds result, Steps spec.bytes.length 0 0 rounds ∧
      (∀ fuel, spec.bytes.length ≤ fuel →
        chartrTableRounds (spec.bytes ++ [0]) fuel = .ok (some (rounds, result))) ∧
      fuzzChartrTableExcessive (spec.bytes ++ [0]) = some result := by
  have hholds : HoldsText (spec.bytes ++ [0]) spec.bytes := ⟨spec.nonzero, [], rfl⟩
  obtain ⟨rounds, result, hsteps, hrun⟩ := @scan_spec spec.bytes spec.bytes.length 0 0 0
    .uninitialised rfl rfl (by omega) (by decide)
  refine ⟨rounds, result, hsteps, fun fuel hfuel => ?_,
    fuzzChartrTableExcessive_of_scan spec.nonzero fun fuel hfuel => ⟨rounds, hrun fuel hfuel⟩⟩
  rw [chartrTableRounds, hholds.strlen]
  exact hrun fuel hfuel

end ROssFuzz.LenientDecoder
