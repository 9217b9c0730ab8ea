import ROssFuzz.LenientDecoder

/-!
# The chartr guard

`fuzz_chartr_table_excessive` reads a C string byte by byte; `wtr_build_spec` reads the
same string as wide characters. On the encoding of a specification the guard decodes the
characters themselves, and counts the entries that `do_chartr` fills its table with.
-/

namespace ROssFuzz.ChartrGuard
open Utf8Bytes CheckedOperations CStrings LenientDecoder

/-! ### What `do_chartr` builds -/

inductive WtrSpec | range (first last : Char) | char (c : Char) deriving DecidableEq

/-- `wtr_build_spec`, `none` where it raises the error for a decreasing range. -/
def wtrBuildSpec : List Char → Option (List WtrSpec)
  | a :: b :: c :: rest =>
      if b = '-' then
        if a > c then none else (wtrBuildSpec rest).map (.range a c :: ·)
      else (wtrBuildSpec (b :: c :: rest)).map (.char a :: ·)
  | rest => some (rest.map .char)

/-- The characters `wtr_get_next_char_from_spec` gets from a specification, as code points:
a range runs through the numbers in between, whatever they stand for. -/
def WtrSpec.expand : WtrSpec → List ℕ
  | .range first last => List.range' first.toNat (last.toNat - first.toNat + 1)
  | .char c => [c.toNat]

/-- The old characters of the table `do_chartr` fills, `xtable_cnt` of them. -/
def xtableOld (spec : List WtrSpec) : List ℕ := spec.flatMap WtrSpec.expand

/-- The number of entries a specification declares. -/
def tableEntries : List Char → ℕ
  | a :: b :: c :: rest =>
      if b = '-' then (if a > c then 0 else c.toNat - a.toNat + 1) + tableEntries rest
      else 1 + tableEntries (b :: c :: rest)
  | rest => rest.length

/-! ### The decoder -/

section Decoder
variable {spec : Bytes} {p : ℕ} {b : UInt8}

/-- A continuation byte takes the loop one round on. -/
private theorem decodeRest_tail {c k i v x : ℕ} (hb : spec[p + i]? = some b) (hx : x < 64)
    (hbx : b.toNat = 0x80 + x) :
    decodeRest spec p c (k + 1) i v = decodeRest spec p c k (i + 1) (v * 64 + x) := by
  obtain ⟨hmark, hbits⟩ := continuation_bits hx
  simp [decodeRest, load_eq_ok_iff.mpr hb, bind, Except.bind, hbx, hmark, hbits, shift_or hx]

/-- The leading byte says how many follow, and carries the bits below its mark. -/
private theorem fuzzDecodeUtf8_lead (hb : spec[p]? = some b) {k x : ℕ}
    (h : k = 1 ∧ x < 32 ∧ b.toNat = 0xc0 + x ∨ k = 2 ∧ x < 16 ∧ b.toNat = 0xe0 + x ∨
      k = 3 ∧ x < 8 ∧ b.toNat = 0xf0 + x) :
    fuzzDecodeUtf8 spec p = decodeRest spec p b.toNat k 1 x := by
  obtain ⟨h₁, h₂, h₃⟩ := leading_bits (x := x)
  have hload := load_eq_ok_iff.mpr hb
  rcases h with ⟨rfl, hx, hbx⟩ | ⟨rfl, hx, hbx⟩ | ⟨rfl, hx, hbx⟩
  · have hlen : ¬ 0xc0 + x < 0x80 ∧ 0xc0 + x < 0xe0 := by omega
    simp [fuzzDecodeUtf8, hload, bind, Except.bind, hbx, hlen, h₁ hx]
  · have hlen : ¬ 0xe0 + x < 0x80 ∧ ¬ 0xe0 + x < 0xe0 ∧ 0xe0 + x < 0xf0 := by omega
    simp [fuzzDecodeUtf8, hload, bind, Except.bind, hbx, hlen, h₂ hx]
  · have hlen : ¬ 0xf0 + x < 0x80 ∧ ¬ 0xf0 + x < 0xe0 ∧ ¬ 0xf0 + x < 0xf0 := by omega
    simp [fuzzDecodeUtf8, hload, bind, Except.bind, hbx, hlen, h₃ hx]

/-- What the decoder makes of a character in the string. -/
def decoded (c : Char) : ℕ × ℕ := (c.toNat, c.utf8Size)

/-- A character's bytes decode to it, whatever is around them. -/
theorem fuzzDecodeUtf8_encode (c : Char) (before rest : Bytes) :
    fuzzDecodeUtf8 (before ++ (String.utf8EncodeChar c ++ rest)) before.length =
      .ok (decoded c) := by
  have hget : ∀ {i : ℕ} {b : UInt8}, (String.utf8EncodeChar c ++ rest)[i]? = some b →
      (before ++ (String.utf8EncodeChar c ++ rest))[before.length + i]? = some b := by
    intro i b hb
    rw [List.getElem?_append_right (Nat.le_add_right _ _), Nat.add_sub_cancel_left, hb]
  have hfirst : ∀ {b : UInt8}, (String.utf8EncodeChar c ++ rest)[0]? = some b →
      (before ++ (String.utf8EncodeChar c ++ rest))[before.length]? = some b :=
    fun hb => hget hb
  rw [decoded, ← String.length_utf8EncodeChar]
  have hlt := toNat_lt c
  have hmod : ∀ x, x % 64 < 64 := fun x => Nat.mod_lt x (by decide)
  rcases utf8EncodeChar_cases c with ⟨hc, h⟩ | ⟨hc, hc', h⟩ | ⟨hc, hc', h⟩ | ⟨hc, h⟩ <;>
    simp only [List.map_eq_cons_iff, List.map_eq_nil_iff] at h
  · obtain ⟨b₀, _, hb, h0, rfl⟩ := h
    rw [hb] at hfirst ⊢
    have hload : load (before ++ ([b₀] ++ rest)) before.length = .ok b₀ :=
      load_eq_ok_iff.mpr (hfirst rfl)
    rw [fuzzDecodeUtf8, hload]
    simp [bind, Except.bind, h0, hc, decodeRest]
  · obtain ⟨b₀, _, hb, h0, b₁, _, rfl, h1, rfl⟩ := h
    rw [hb] at hget hfirst ⊢
    rw [fuzzDecodeUtf8_lead (hfirst rfl) (.inl ⟨rfl, by omega, h0⟩),
      decodeRest_tail (hget rfl) (hmod _) h1, decodeRest]
    simp
    omega
  · obtain ⟨b₀, _, hb, h0, b₁, _, rfl, h1, b₂, _, rfl, h2, rfl⟩ := h
    rw [hb] at hget hfirst ⊢
    rw [fuzzDecodeUtf8_lead (hfirst rfl) (.inr (.inl ⟨rfl, by omega, h0⟩)),
      decodeRest_tail (hget rfl) (hmod _) h1, decodeRest_tail (hget rfl) (hmod _) h2, decodeRest]
    simp
    omega
  · obtain ⟨b₀, _, hb, h0, b₁, _, rfl, h1, b₂, _, rfl, h2, b₃, _, rfl, h3, rfl⟩ := h
    rw [hb] at hget hfirst ⊢
    rw [fuzzDecodeUtf8_lead (hfirst rfl) (.inr (.inr ⟨rfl, by omega, h0⟩)),
      decodeRest_tail (hget rfl) (hmod _) h1, decodeRest_tail (hget rfl) (hmod _) h2,
      decodeRest_tail (hget rfl) (hmod _) h3, decodeRest]
    simp
    omega

end Decoder

/-! ### The scan -/

/-- From the start of a character the look-ahead sees the characters themselves. -/
theorem ahead_encode {left : ℕ} {before : Bytes} {rest : List Char} {ds : List (ℕ × ℕ)}
    (h : Ahead (before ++ encode rest) left before.length ds) :
    ds = (rest.take left).map decoded := by
  induction left generalizing before rest ds with
  | zero => simpa using h.length_le
  | succ left ih =>
    have hended := h.ended
    have hwithin := h.within
    cases rest with
    | nil =>
      cases ds with
      | nil => rfl
      | cons d ds =>
        have hd := (h.small d List.mem_cons_self).1
        simp at hwithin
        omega
    | cons c rest =>
      have hpos := c.utf8Size_pos
      cases ds with
      | nil =>
        simp at hended
        omega
      | cons d ds =>
        have hdecode := fuzzDecodeUtf8_encode c before (encode rest ++ [0])
        obtain ⟨hd, htail⟩ := h.decodes
        have htext : before ++ encode (c :: rest) =
            (before ++ String.utf8EncodeChar c) ++ encode rest := by simp
        have hstart : (before ++ String.utf8EncodeChar c).length = before.length + c.utf8Size := by
          simp
        obtain rfl : d = decoded c := by
          simp only [encode_cons, List.append_assoc] at hd
          rw [hdecode] at hd
          exact (Except.ok.inj hd).symm
        have hrest : Ahead ((before ++ String.utf8EncodeChar c) ++ encode rest) left
            (before ++ String.utf8EncodeChar c).length ds := by
          rw [hstart, ← htext]
          have hsum : ((decoded c :: ds).map Prod.snd).sum = c.utf8Size + (ds.map Prod.snd).sum := by
            simp [decoded]
          rw [hsum, ← Nat.add_assoc] at hended hwithin
          exact ⟨htail, by simpa using h.length_le,
            fun hlt => hended (by simpa using hlt), hwithin,
            fun d hd => h.small d (List.mem_cons_of_mem _ hd)⟩
        rw [List.take_succ_cons, List.map_cons, ← ih hrest]

/-- What a round does at the start of a character: it takes some of the characters, and adds the
entries that they declare. -/
def Takes (before : Bytes) (entries : ℕ) (cs : List Char) (r : Round) : Prop :=
  ∃ taken rest more, cs = taken ++ rest ∧ taken ≠ [] ∧
    r.next = before.length + (encode taken).length ∧ r.entries = entries + more ∧
    tableEntries cs = more + tableEntries rest

theorem body_encode {before : Bytes} {c : Char} {rest : List Char} {round entries : ℕ} {a : Arrays}
    (hcps : a.cps.length = 4) (hlens : a.lens.length = 4) (he : entries ≤ fuzzMaxChartrTable) :
    ∃ r a', body ((before ++ encode (c :: rest)) ++ [0]) (before ++ encode (c :: rest)).length
        round before.length entries a = .ok (r, a') ∧
      a'.cps.length = 4 ∧ a'.lens.length = 4 ∧ Takes before entries (c :: rest) r := by
  obtain ⟨ds, a', hrun, hw, hahead⟩ := @lookAhead_spec (before ++ encode (c :: rest)) round a 3
    before.length [] (.nil hcps hlens) (by simp) (by simp)
  have hsmall := hahead.small
  obtain rfl := ahead_encode hahead
  simp only [List.nil_append, List.length_nil, Nat.zero_add] at hrun hw
  by_cases hrange : ∃ d rest', rest = '-' :: d :: rest'
  · obtain ⟨d, rest', rfl⟩ := hrange
    simp only [List.take_succ_cons, List.take_zero, List.map_cons, List.map_nil] at hrun hw hsmall
    have hd := (hsmall (decoded d) (by simp)).2
    have hle : d.toNat ≥ c.toNat ↔ ¬ c > d := by
      rw [gt_iff_lt, Char.lt_def, ← UInt32.not_le, not_not, UInt32.le_iff_toNat_le]
      rfl
    refine ⟨_, a', body_range hrun hw rfl hd he, hw.cps_length, hw.lens_length,
      [c, '-', d], rest', if c > d then 0 else d.toNat - c.toNat + 1, rfl, by simp, ?_, ?_, ?_⟩
    · simp [decoded]
      omega
    · by_cases hcd : c > d <;> simp [decoded, hle, hcd]
    · simp [tableEntries]
  · have hdash : ∀ e f, (rest.take 2).map decoded = [e, f] → e.1 ≠ '-'.toNat := by
      intro e f hef heq
      match rest with
      | [] | [x] => simp at hef
      | x :: y :: rest' =>
        obtain rfl : decoded x = e := by simpa using congrArg List.head? hef
        exact hrange ⟨y, rest', by rw [Char.toNat_inj.mp heq]⟩
    rw [List.take_succ_cons, List.map_cons] at hrun hw
    refine ⟨_, a', body_char hrun hw hdash he, hw.cps_length, hw.lens_length,
      [c], rest, 1, rfl, by simp, by simp [decoded], rfl, ?_⟩
    match rest with
    | [] | [x] => rfl
    | x :: y :: rest' =>
      have hx : x ≠ '-' := fun hx => hrange ⟨y, rest', by rw [hx]⟩
      simp [tableEntries, hx]

/-- The rest of a scan that stands at the start of a character, or at the end. -/
theorem scan_encode (fuel : ℕ) {before : Bytes} {rest : List Char} {round entries : ℕ} {a : Arrays}
    (hcps : a.cps.length = 4) (hlens : a.lens.length = 4) (hfuel : rest.length ≤ fuel)
    (he : entries ≤ fuzzMaxChartrTable) :
    ∃ rounds, scan ((before ++ encode rest) ++ [0]) (before ++ encode rest).length fuel round
      before.length entries a =
        .ok (some (rounds, decide (fuzzMaxChartrTable < entries + tableEntries rest))) := by
  induction fuel generalizing before rest round entries a with
  | zero =>
    obtain rfl : rest = [] := List.length_eq_zero_iff.mp (Nat.le_zero.mp hfuel)
    exact ⟨[], by simpa [scan, tableEntries] using he⟩
  | succ fuel ih =>
    cases rest with
    | nil => exact ⟨[], by simpa [scan, tableEntries] using he⟩
    | cons c rest =>
      have hpos := c.utf8Size_pos
      have hlt : before.length < (before ++ encode (c :: rest)).length := by simp; omega
      obtain ⟨r, a', hbody, hcps', hlens', taken, rest', more, hsplit, hne, hnext, hmore, htable⟩ :=
        @body_encode before c rest round entries a hcps hlens he
      rw [scan, if_pos hlt, hbody]
      simp only [bind, Except.bind]
      by_cases hover : r.entries > fuzzMaxChartrTable
      · rw [if_pos hover, decide_eq_true (by omega)]
        exact ⟨[r], rfl⟩
      · have htaken := List.length_pos_iff.mpr hne
        have hlen := congrArg List.length hsplit
        rw [List.length_append] at hlen
        obtain ⟨rounds, hrounds⟩ := @ih (before ++ encode taken) rest' (round + 1) r.entries a'
          hcps' hlens' (by omega) (by omega)
        have htext : (before ++ encode taken) ++ encode rest' = before ++ encode (c :: rest) := by
          rw [hsplit, encode_append, List.append_assoc]
        have hstart : (before ++ encode taken).length = r.next := by simp [hnext]
        have htotal : r.entries + tableEntries rest' = entries + tableEntries (c :: rest) := by omega
        rw [htext, hstart, htotal] at hrounds
        rw [if_neg hover, hrounds]
        exact ⟨r :: rounds, rfl⟩

/-! ### The guard and the table -/

private theorem zero_notMem_encode {cs : List Char} (hcs : ∀ c ∈ cs, c.toNat ≠ 0) :
    (0 : UInt8) ∉ encode cs := by
  intro hmem
  obtain ⟨c, hc, hb⟩ := List.mem_flatMap.mp hmem
  exact toNat_ne_of_mem (by decide) (hcs c hc) hb rfl

private theorem length_le_encode (cs : List Char) : cs.length ≤ (encode cs).length := by
  induction cs with
  | nil => simp
  | cons c cs ih =>
    have hpos := c.utf8Size_pos
    simp only [List.length_cons, encode_cons, List.length_append, String.length_utf8EncodeChar]
    omega

/-- The table has the entries its specification declares. -/
theorem length_xtableOld {cs : List Char} {spec : List WtrSpec}
    (h : wtrBuildSpec cs = some spec) : (xtableOld spec).length = tableEntries cs := by
  induction cs using wtrBuildSpec.induct generalizing spec with
  | case1 a c rest hac =>
    simp [wtrBuildSpec, hac] at h
  | case2 a c rest hac ih =>
    obtain ⟨spec', h', rfl⟩ : ∃ spec', wtrBuildSpec rest = some spec' ∧
        WtrSpec.range a c :: spec' = spec := by
      simpa [wtrBuildSpec, hac] using h
    have hih := ih h'
    simp only [xtableOld] at hih ⊢
    simp [WtrSpec.expand, hih, tableEntries, hac]
  | case3 a b c rest hb ih =>
    obtain ⟨spec', h', rfl⟩ : ∃ spec', wtrBuildSpec (b :: c :: rest) = some spec' ∧
        WtrSpec.char a :: spec' = spec := by
      simpa [wtrBuildSpec, hb] using h
    have hih := ih h'
    simp only [xtableOld] at hih ⊢
    simp [WtrSpec.expand, hih, tableEntries, hb]
    omega
  | case4 rest hshort =>
    match rest with
    | [] | [a] | [a, b] =>
      obtain rfl := by simpa [wtrBuildSpec] using h
      rfl
    | a :: b :: c :: rest => exact absurd rfl (hshort a b c rest)

/-- The guard refuses a specification exactly when it declares more entries than the table
may have; of the specifications R takes, these are the ones with a larger table. -/
theorem chartr_guard (cs : List Char) (hcs : ∀ c ∈ cs, c.toNat ≠ 0) :
    fuzzChartrTableExcessive (encode cs ++ [0]) =
        some (decide (fuzzMaxChartrTable < tableEntries cs)) ∧
      ∀ spec, wtrBuildSpec cs = some spec → (xtableOld spec).length = tableEntries cs ∧
        (fuzzChartrTableExcessive (encode cs ++ [0]) = some false ↔
          (xtableOld spec).length ≤ fuzzMaxChartrTable) := by
  have hscan : fuzzChartrTableExcessive (encode cs ++ [0]) =
      some (decide (fuzzMaxChartrTable < tableEntries cs)) := by
    refine fuzzChartrTableExcessive_of_scan (zero_notMem_encode hcs) fun fuel hfuel => ?_
    have h := @scan_encode fuel [] cs 0 0 .uninitialised rfl rfl
      ((length_le_encode cs).trans hfuel) (Nat.zero_le _)
    simpa using h
  refine ⟨hscan, fun spec hspec => ⟨length_xtableOld hspec, ?_⟩⟩
  rw [hscan, length_xtableOld hspec]
  simp

/-- A range from a character of one byte to one of four, and a character after it. -/
theorem chartr_guard_range :
    fuzzChartrTableExcessive (encode ['a', '-', '😀', 'b'] ++ [0]) = some false ∧
      (xtableOld [.range 'a' '😀', .char 'b']).length = 128417 := by
  have h := chartr_guard ['a', '-', '😀', 'b'] (by simp)
  have hspec : wtrBuildSpec ['a', '-', '😀', 'b'] = some [.range 'a' '😀', .char 'b'] := by decide
  have hentries : tableEntries ['a', '-', '😀', 'b'] = 128417 := by decide
  refine ⟨?_, ?_⟩
  · rw [h.1, hentries]
    decide
  · rw [(h.2 _ hspec).1, hentries]

end ROssFuzz.ChartrGuard
