import ROssFuzz.CheckedOperations
import Mathlib.Data.List.Infix

/-!
# The string readers of files before version 1

`AsciiInString` and `BinaryInString` read a string into the buffer that their caller has
sized. The buffer is a list of `bufsize` bytes and the stream what `R_fgetc` still returns
before `R_EOF`. Which character an escape stands for is a parameter: nothing depends on it.
-/

namespace ROssFuzz.OldStringReaders
open CheckedOperations

def quote : UInt8 := 0x22

def backslash : UInt8 := 0x5c

/-- What a reader leaves: the buffer, and the rest of the stream. -/
structure Read where
  data : List UInt8
  stream : List UInt8

/-- `if (bufp >= end) error(...); *bufp = (char) c;`, with the place of `end`. -/
def put (last : ℕ) (data : List UInt8) (bufp : ℕ) (c : UInt8) : Except Stop (List UInt8) :=
  if bufp ≥ last then .error .error else store data bufp c

/-- The loop that looks for the opening quote. -/
def skipToQuote : List UInt8 → Except Stop (List UInt8)
  | [] => .error .error
  | c :: stream => if c = quote then .ok stream else skipToQuote stream

/-- `*bufp = '\\0'` and the return. -/
def close (data : List UInt8) (bufp : ℕ) (stream : List UInt8) : Except Stop Read := do
  .ok ⟨← store data bufp 0, stream⟩

/-- The loop over the characters. -/
def asciiChars (unescape : UInt8 → UInt8) (last : ℕ) (data : List UInt8) (bufp : ℕ) :
    List UInt8 → Except Stop Read
  | [] => close data bufp []
  | c :: stream =>
      if c = quote then close data bufp stream
      else if c = backslash then
        match stream with
        | [] => close data bufp []
        | c :: stream => do
            asciiChars unescape last (← put last data bufp (unescape c)) (bufp + 1) stream
      else do asciiChars unescape last (← put last data bufp c) (bufp + 1) stream

/-- `AsciiInString`. -/
def asciiInString (unescape : UInt8 → UInt8) (data stream : List UInt8) : Except Stop Read := do
  asciiChars unescape (data.length - 1) data 0 (← skipToQuote stream)

/-- The loop of `BinaryInString`. -/
def binaryChars (last : ℕ) (data : List UInt8) (bufp : ℕ) : List UInt8 → Except Stop Read
  | [] => .error .error
  | c :: stream => do
      let data ← put last data bufp c
      if c = 0 then .ok ⟨data, stream⟩ else binaryChars last data (bufp + 1) stream

/-- `BinaryInString`. -/
def binaryInString (data stream : List UInt8) : Except Stop Read :=
  binaryChars data.length data 0 stream

/-! ### What they are to read -/

/-- The characters up to the closing quote, and the text behind it; none where the text ends
before it. -/
def unquote (unescape : UInt8 → UInt8) : List UInt8 → List UInt8 × Option (List UInt8)
  | [] => ([], none)
  | c :: text =>
      if c = quote then ([], some text)
      else if c = backslash then
        match text with
        | [] => ([], none)
        | c :: text =>
            (unescape c :: (unquote unescape text).1, (unquote unescape text).2)
      else (c :: (unquote unescape text).1, (unquote unescape text).2)

/-- The stream has these characters between quotes, and `rest` behind them. -/
def AsciiString (unescape : UInt8 → UInt8) (stream chars rest : List UInt8) : Prop :=
  ∃ before body, stream = before ++ quote :: body ∧ quote ∉ before ∧
    unquote unescape body = (chars, some rest)

/-- The stream begins with these characters and a NUL. -/
def BinaryString (stream chars rest : List UInt8) : Prop :=
  stream = chars ++ 0 :: rest ∧ 0 ∉ chars

/-- Nothing outside the buffer is written; and either it is an error, or the buffer begins with
a string, and its NUL, that the stream has with its terminator. -/
def Reads (data : List UInt8) (string : List UInt8 → List UInt8 → Prop)
    (result : Except Stop Read) : Prop :=
  Safe result fun r => r.data.length = data.length ∧
    ∃ chars, string chars r.stream ∧ chars ++ [0] <+: r.data

/-- The stream ends between the quotes, before there are too many characters. -/
def EndsInside (unescape : UInt8 → UInt8) (bufsize : ℕ) (stream : List UInt8) : Prop :=
  ∃ before body, stream = before ++ quote :: body ∧ quote ∉ before ∧
    (unquote unescape body).2 = none ∧ (unquote unescape body).1.length < bufsize

/-! ### The buffer -/

variable {unescape : UInt8 → UInt8} {data written stream : List UInt8} {last : ℕ} {c : UInt8}

private theorem prefix_set (hwritten : written <+: data) (hroom : written.length < data.length)
    (c : UInt8) : written ++ [c] <+: data.set written.length c := by
  obtain ⟨room, rfl⟩ := hwritten
  cases room with
  | nil => simp at hroom
  | cons x room =>
    refine ⟨room, ?_⟩
    rw [List.set_append_right _ _ (Nat.le_refl _), Nat.sub_self, List.set_cons_zero,
      List.append_assoc, List.singleton_append]

private theorem safe_put (hwritten : written <+: data) (hlast : last ≤ data.length) :
    Safe (put last data written.length c)
      fun data' => data'.length = data.length ∧ written ++ [c] <+: data' := by
  refine .guard fun hroom => safe_store (by omega) ⟨List.length_set, ?_⟩
  exact prefix_set hwritten (by omega) c

/-! ### The reader of binary files -/

private theorem binaryChars_reads (hwritten : written <+: data) :
    Safe (binaryChars data.length data written.length stream) fun r =>
      r.data.length = data.length ∧
        ∃ chars, BinaryString stream chars r.stream ∧ written ++ chars ++ [0] <+: r.data := by
  induction stream generalizing data written with
  | nil => exact .error
  | cons c stream ih =>
    rw [binaryChars]
    apply (safe_put hwritten (Nat.le_refl _)).bind
    rintro data' ⟨hlength, hprefix⟩
    by_cases hc : c = 0
    · rw [if_pos hc]
      refine .ok ⟨hlength, [], ⟨by rw [hc]; rfl, List.not_mem_nil⟩, ?_⟩
      rw [List.append_nil]
      exact hc ▸ hprefix
    · rw [if_neg hc]
      have hrest := ih hprefix
      rw [hlength, List.length_append, List.length_singleton] at hrest
      apply hrest.mono
      rintro r ⟨hdata, chars, ⟨hstream, hchars⟩, hread⟩
      refine ⟨hdata, c :: chars, ⟨by rw [hstream]; rfl, ?_⟩, by simpa using hread⟩
      exact fun hmem => (List.mem_cons.mp hmem).elim (fun h => hc h.symm) hchars

/-! ### The reader of ascii files -/

/-- The characters go behind those already written, with a NUL, or are too many. -/
private def Fills (data written chars rest : List UInt8) (result : Except Stop Read) : Prop :=
  if written.length + chars.length < data.length then
    ∃ out, result = .ok ⟨out, rest⟩ ∧ out.length = data.length ∧ written ++ chars ++ [0] <+: out
  else result = .error .error

private theorem fills_close (hwritten : written <+: data) (hroom : written.length < data.length)
    (rest : List UInt8) : Fills data written [] rest (close data written.length rest) := by
  rw [Fills, if_pos (by simpa using hroom), close, store_of_lt hroom]
  refine ⟨_, rfl, List.length_set, ?_⟩
  rw [List.append_nil]
  exact prefix_set hwritten hroom 0

/-- One character more. -/
private theorem fills_put {chars rest : List UInt8} (hwritten : written <+: data)
    (hroom : written.length < data.length) {loop : List UInt8 → Except Stop Read}
    (hloop : ∀ data', data'.length = data.length → written ++ [c] <+: data' →
      written.length + 1 < data.length → Fills data' (written ++ [c]) chars rest (loop data')) :
    Fills data written (c :: chars) rest
      (put (data.length - 1) data written.length c >>= loop) := by
  rw [Fills, put]
  by_cases hfull : written.length + 1 < data.length
  · have hrest := hloop _ List.length_set (prefix_set hwritten hroom c) hfull
    rw [Fills, List.length_set, List.length_append, List.length_singleton] at hrest
    rw [if_neg (by omega : ¬ written.length ≥ data.length - 1), store_of_lt hroom,
      List.length_cons, Nat.add_comm chars.length, ← Nat.add_assoc]
    change if _ then ∃ out, loop _ = _ ∧ _ else loop _ = _
    simpa using hrest
  · rw [if_pos (by omega : written.length ≥ data.length - 1), List.length_cons,
      if_neg (by omega)]
    rfl

private theorem asciiChars_fills (unescape : UInt8 → UInt8) (stream : List UInt8)
    (hwritten : written <+: data) (hroom : written.length < data.length) :
    Fills data written (unquote unescape stream).1 ((unquote unescape stream).2.getD [])
      (asciiChars unescape (data.length - 1) data written.length stream) := by
  induction stream using unquote.induct generalizing data written with
  | case1 =>
    rw [unquote, asciiChars]
    exact fills_close hwritten hroom []
  | case2 stream =>
    unfold unquote asciiChars
    rw [if_pos rfl, if_pos rfl]
    exact fills_close hwritten hroom stream
  | case3 hquote =>
    unfold unquote asciiChars
    rw [if_neg hquote, if_neg hquote, if_pos rfl, if_pos rfl]
    exact fills_close hwritten hroom []
  | case4 e stream hquote ih =>
    unfold unquote asciiChars
    rw [if_neg hquote, if_neg hquote, if_pos rfl, if_pos rfl]
    apply fills_put hwritten hroom
    intro data' hlength hprefix hroom'
    have hrest := ih hprefix (by simpa [hlength] using hroom')
    rwa [hlength, List.length_append] at hrest
  | case5 c stream hquote hc ih =>
    unfold unquote asciiChars
    rw [if_neg hquote, if_neg hquote, if_neg hc, if_neg hc]
    apply fills_put hwritten hroom
    intro data' hlength hprefix hroom'
    have hrest := ih hprefix (by simpa [hlength] using hroom')
    rwa [hlength, List.length_append] at hrest

private theorem skipToQuote_append {before : List UInt8} (h : quote ∉ before)
    (body : List UInt8) : skipToQuote (before ++ quote :: body) = .ok body := by
  induction before with
  | nil => exact if_pos rfl
  | cons c before ih =>
    rw [List.mem_cons, not_or] at h
    obtain ⟨hc, hbefore⟩ := h
    rw [List.cons_append, skipToQuote, if_neg (Ne.symm hc)]
    exact ih hbefore

private theorem skipToQuote_error (h : quote ∉ stream) : skipToQuote stream = .error .error := by
  induction stream with
  | nil => rfl
  | cons c stream ih =>
    rw [List.mem_cons, not_or] at h
    obtain ⟨hc, hstream⟩ := h
    rw [skipToQuote, if_neg (Ne.symm hc)]
    exact ih hstream

private theorem quote_split {before body before' body' : List UInt8} (h : quote ∉ before)
    (h' : quote ∉ before') (heq : before ++ quote :: body = before' ++ quote :: body') :
    body = body' := by
  have hskip := skipToQuote_append h body
  rw [heq, skipToQuote_append h' body'] at hskip
  exact (Except.ok.inj hskip).symm

/-- The reader of ascii files does as it should exactly when the stream does not end inside
the string. -/
private theorem asciiInString_reads_iff (hdata : 0 < data.length) :
    Reads data (AsciiString unescape stream) (asciiInString unescape data stream) ↔
      ¬ EndsInside unescape data.length stream := by
  by_cases hmem : quote ∈ stream
  swap
  · -- there is no string
    rw [asciiInString, skipToQuote_error hmem]
    refine ⟨fun _ => ?_, fun _ => .error⟩
    rintro ⟨before, body, rfl, -⟩
    exact hmem (List.mem_append_right _ List.mem_cons_self)
  obtain ⟨before, body, rfl, hbefore⟩ := List.eq_append_cons_of_mem hmem
  have hread : asciiInString unescape data (before ++ quote :: body) =
      asciiChars unescape (data.length - 1) data 0 body := by
    rw [asciiInString, skipToQuote_append hbefore]
    rfl
  have hfills := asciiChars_fills unescape body (List.nil_prefix (l := data)) hdata
  rw [List.length_nil, ← hread, Fills, List.length_nil, Nat.zero_add] at hfills
  split at hfills
  case isTrue hfits =>
    obtain ⟨out, hresult, hlength, hprefix⟩ := hfills
    rw [hresult]
    cases hafter : (unquote unescape body).2 with
    | none =>
      -- what has been read is returned, but the stream has no closing quote
      refine iff_of_false (fun hreads => ?_) fun h => h ⟨before, body, rfl, hbefore, hafter, hfits⟩
      obtain ⟨-, chars, ⟨before', body', heq, hbefore', hquoted⟩, -⟩ := hreads.2 _ rfl
      rw [← quote_split hbefore hbefore' heq] at hquoted
      rw [hquoted] at hafter
      cases hafter
    | some rest =>
      refine iff_of_true (.ok ⟨hlength, _, ⟨before, body, rfl, hbefore, ?_⟩, hprefix⟩) ?_
      · exact Prod.ext rfl hafter
      · rintro ⟨before', body', heq, hbefore', hnone, -⟩
        rw [← quote_split hbefore hbefore' heq, hafter] at hnone
        cases hnone
  case isFalse hlong =>
    rw [hfills]
    refine iff_of_true .error ?_
    rintro ⟨before', body', heq, hbefore', -, hfits⟩
    rw [← quote_split hbefore hbefore' heq] at hfits
    exact hlong hfits

/-- For every stream and buffer, the reader of binary files returns a string that the stream
has with its NUL, or signals an error; the one of ascii files does so exactly when the stream
does not end inside a string that is short enough. -/
theorem inString_reads_iff (unescape : UInt8 → UInt8) (data stream : List UInt8)
    (hdata : 0 < data.length) :
    (Reads data (AsciiString unescape stream) (asciiInString unescape data stream) ↔
      ¬ EndsInside unescape data.length stream) ∧
    Reads data (BinaryString stream) (binaryInString data stream) :=
  ⟨asciiInString_reads_iff hdata, binaryChars_reads List.nil_prefix⟩

/-- `"a"` in a buffer of two bytes. -/
theorem inString_reads_iff_short :
    Reads [1, 1] (AsciiString id [quote, 0x61, quote])
      (asciiInString id [1, 1] [quote, 0x61, quote]) := by
  refine (inString_reads_iff id [1, 1] [quote, 0x61, quote] (by decide)).1.mpr ?_
  rintro ⟨before, body, heq, hbefore, hnone, -⟩
  rw [← quote_split List.not_mem_nil hbefore heq] at hnone
  exact absurd hnone (by decide)

/-- A stream that ends after `"a` is read as the string `a`. -/
theorem asciiInString_shortens :
    ¬ Reads [1, 1] (AsciiString id [quote, 0x61]) (asciiInString id [1, 1] [quote, 0x61]) := by
  intro h
  obtain ⟨-, chars, ⟨before, body, heq, hbefore, hquoted⟩, -⟩ := h.2 ⟨[0x61, 0], []⟩ rfl
  have hnone : (unquote id [0x61]).2 = none := by decide
  rw [quote_split List.not_mem_nil hbefore heq, hquoted] at hnone
  cases hnone

end ROssFuzz.OldStringReaders
