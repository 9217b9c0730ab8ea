import ROssFuzz.CStrings

/-!
# The text of a label

`fuzz_do_deparse` appends the deparsed lines of a call to the header that is in the buffer
already, until a line does not fit with room left for the closing marker. The marker is
copied without a test of its own.
-/

namespace ROssFuzz.LabelText
open CheckedOperations CStrings

/-- `FUZZ_LABEL_MAX`. -/
def fuzzLabelMax : ℕ := 4096

def indent : Bytes := ascii "    "

def newline : UInt8 := 0x0a

def marker : Bytes := ascii "    ...\n"

/-- `sizeof "    ...\n"`, the terminator included. -/
def markerSize : ℕ := marker.length + 1

/-- `fuzz_deparse_job_t`, but for the call. -/
structure DeparseJob where
  buf : Bytes
  len : ℕ

/-- `fuzz_label_append_line`, `none` where the line does not fit. No line in memory is so
long that the sum wraps around. -/
def fuzzLabelAppendLine (job : DeparseJob) (line : CString) : Except Stop (Option DeparseJob) :=
  let n := line.bytes.length
  if job.len + 4 + n + 1 ≥ fuzzLabelMax - markerSize then .ok none
  else do
    let buf ← memcpy job.buf job.len indent
    let buf ← memcpy buf (job.len + 4) line.bytes
    let buf ← store buf (job.len + 4 + n) newline
    let len := job.len + (4 + n + 1)
    let buf ← store buf len 0
    .ok (some ⟨buf, len⟩)

/-- The loop of `fuzz_do_deparse`. -/
def appendLines (job : DeparseJob) : List CString → Except Stop DeparseJob
  | [] => .ok job
  | line :: lines => do
      match ← fuzzLabelAppendLine job line with
      | some job => appendLines job lines
      | none => .ok { job with buf := ← memcpy job.buf job.len (marker ++ [0]) }

/-- `fuzz_do_deparse` under `R_ToplevelExec`; `none` where `deparse` raises an error, which
leaves the header alone. -/
def fuzzDoDeparse (job : DeparseJob) : Option (List CString) → Except Stop DeparseJob
  | some lines => appendLines job lines
  | none => .ok job

/-! ### What the buffer holds -/

/-- A line as the label shows it. -/
def shown (line : CString) : Bytes := indent ++ line.bytes ++ [newline]

def body (lines : List CString) : Bytes := lines.flatMap shown

/-- The room test, after `len` bytes of text. -/
def Fits (len : ℕ) (line : CString) : Prop :=
  len + 4 + line.bytes.length + 1 < fuzzLabelMax - markerSize

instance (len : ℕ) (line : CString) : Decidable (Fits len line) := Nat.decLt _ _

/-- What is appended to a text of `len` bytes. -/
def bodyFrom (len : ℕ) : List CString → Bytes
  | [] => []
  | line :: lines =>
      if Fits len line then shown line ++ bodyFrom (len + (shown line).length) lines else marker

/-- The job holds the text and knows its length. -/
structure Holds (job : DeparseJob) (text : Bytes) : Prop where
  length_eq : job.buf.length = fuzzLabelMax
  len_eq : job.len = text.length
  text : HoldsText job.buf text

@[simp] theorem length_indent : indent.length = 4 := by decide

@[simp] theorem length_shown (line : CString) :
    (shown line).length = 4 + line.bytes.length + 1 := by
  simp [shown]
  omega

/-- Behind a line that fits there is room for the marker. -/
theorem Fits.room {len : ℕ} {line : CString} (h : Fits len line) :
    len + (shown line).length + markerSize ≤ fuzzLabelMax := by
  have hmax : fuzzLabelMax = (fuzzLabelMax - markerSize) + markerSize := by decide
  unfold Fits at h
  rw [length_shown]
  omega

@[simp] theorem body_cons (line : CString) (lines : List CString) :
    body (line :: lines) = shown line ++ body lines := rfl

theorem not_mem_shown (line : CString) : 0 ∉ shown line := by
  have hindent : 0 ∉ indent := by decide
  have hnewline : 0 ≠ newline := by decide
  simp [shown, hindent, hnewline, line.nonzero]

/-- A line that fits is appended in full. -/
theorem append_fits {job : DeparseJob} {text : Bytes} {line : CString} (h : Holds job text)
    (hfits : Fits text.length line) :
    ∃ job', fuzzLabelAppendLine job line = .ok (some job') ∧ Holds job' (text ++ shown line) := by
  obtain ⟨buf, len⟩ := job
  obtain ⟨hlength, rfl, hnonzero, rest, rfl⟩ := h
  have hroom : fuzzLabelMax = (fuzzLabelMax - markerSize) + 9 := by decide
  unfold Fits at hfits
  simp only [List.length_append, List.length_cons] at hlength
  -- the indent, the line, the newline and the terminator, one after the other
  obtain ⟨r₁, h₁, hr₁⟩ := memcpy_after text indent
    (show indent.length ≤ (0 :: rest).length by simp; omega)
  simp only [List.length_cons, length_indent] at hr₁
  obtain ⟨r₂, h₂, hr₂⟩ := memcpy_after (text ++ indent) line.bytes
    (show line.bytes.length ≤ r₁.length by omega)
  obtain ⟨r₃, h₃, hr₃⟩ := store_after (text ++ indent ++ line.bytes) newline
    (show 0 < r₂.length by omega)
  obtain ⟨r₄, h₄, hr₄⟩ := store_after (text ++ indent ++ line.bytes ++ [newline]) 0
    (show 0 < r₃.length by omega)
  refine ⟨⟨text ++ shown line ++ 0 :: r₄, text.length + (4 + line.bytes.length + 1)⟩, ?_, ?_⟩
  · simp only [List.length_append, length_indent, List.length_singleton] at h₂ h₃ h₄
    simp only [fuzzLabelAppendLine, if_neg (Nat.not_le.mpr hfits)]
    rw [h₁]
    change (memcpy (text ++ indent ++ r₁) _ _ >>= _) = _
    rw [h₂]
    change (store (text ++ indent ++ line.bytes ++ r₂) _ _ >>= _) = _
    rw [h₃]
    change (store (text ++ indent ++ line.bytes ++ [newline] ++ r₃) _ _ >>= _) = _
    rw [← Nat.add_assoc, ← Nat.add_assoc, h₄]
    simp [shown, bind, Except.bind]
  · refine ⟨?_, by simp, ?_, r₄, rfl⟩
    · simp
      omega
    · simpa [hnonzero] using not_mem_shown line

/-- Where a line does not fit the marker does, as long as nothing but fitting lines came
after a header that leaves room for it. -/
theorem appendLines_spec {job : DeparseJob} {text : Bytes} (h : Holds job text)
    (hmarker : text.length + markerSize ≤ fuzzLabelMax) (lines : List CString) :
    ∃ job', appendLines job lines = .ok job' ∧ job'.buf.length = fuzzLabelMax ∧
      HoldsText job'.buf (text ++ bodyFrom text.length lines) := by
  induction lines generalizing job text with
  | nil => exact ⟨job, rfl, h.length_eq, by simpa [bodyFrom] using h.text⟩
  | cons line lines ih =>
    by_cases hfits : Fits text.length line
    · obtain ⟨job₁, hjob₁, h₁⟩ := append_fits h hfits
      have hroom : (text ++ shown line).length + markerSize ≤ fuzzLabelMax := by
        rw [List.length_append]
        exact hfits.room
      obtain ⟨job', hjob', hlength, htext⟩ := ih h₁ hroom
      refine ⟨job', ?_, hlength, ?_⟩
      · rw [appendLines, hjob₁]
        exact hjob'
      · simpa [bodyFrom, hfits] using htext
    · obtain ⟨buf, len⟩ := job
      obtain ⟨hlength, rfl, hnonzero, rest, rfl⟩ := h
      have hsize : (marker ++ [0]).length = markerSize := by simp [markerSize]
      have hzero : 0 ∉ marker := by decide
      obtain ⟨r, hr, hrlength⟩ := memcpy_after text (marker ++ [0])
        (show (marker ++ [0]).length ≤ (0 :: rest).length by
          simp only [List.length_append, List.length_cons] at hlength hsize ⊢
          omega)
      refine ⟨⟨text ++ (marker ++ [0]) ++ r, text.length⟩, ?_, ?_, ?_⟩
      · have hrefused : fuzzLabelAppendLine ⟨text ++ 0 :: rest, text.length⟩ line = .ok none :=
          if_pos (Nat.le_of_not_lt hfits)
        rw [appendLines, hrefused]
        change (memcpy _ _ _ >>= _) = _
        rw [hr]
        rfl
      · simp only [List.length_append, List.length_cons] at hlength hrlength ⊢
        omega
      · exact ⟨by simp [bodyFrom, hfits, hnonzero, hzero], r, by simp [bodyFrom, hfits]⟩

theorem fuzzDoDeparse_spec {job : DeparseJob} {text : Bytes} (h : Holds job text)
    (hmarker : text.length + markerSize ≤ fuzzLabelMax) (lines : Option (List CString)) :
    ∃ job', fuzzDoDeparse job lines = .ok job' ∧ job'.buf.length = fuzzLabelMax ∧
      HoldsText job'.buf (text ++ bodyFrom text.length (lines.getD [])) := by
  cases lines with
  | none => exact appendLines_spec h hmarker []
  | some lines => exact appendLines_spec h hmarker lines

/-- The lines that are shown are the longest run of lines that all pass the room test, each
in its place; the marker stands for the others. -/
theorem bodyFrom_split (len : ℕ) (hmarker : len + markerSize ≤ fuzzLabelMax)
    (lines : List CString) :
    ∃ kept dropped, lines = kept ++ dropped ∧
      bodyFrom len lines = body kept ++ (if dropped = [] then [] else marker) ∧
      (∀ before line after, kept = before ++ line :: after →
        Fits (len + (body before).length) line) ∧
      (∀ line after, dropped = line :: after → ¬ Fits (len + (body kept).length) line) ∧
      len + (body kept).length + markerSize ≤ fuzzLabelMax := by
  induction lines generalizing len with
  | nil => exact ⟨[], [], rfl, rfl, by simp, by simp, hmarker⟩
  | cons line lines ih =>
    by_cases hfits : Fits len line
    · obtain ⟨kept, dropped, rfl, hbody, hkept, hdropped, hleft⟩ := ih _ hfits.room
      refine ⟨line :: kept, dropped, rfl, ?_, ?_, ?_, ?_⟩
      · rw [bodyFrom, if_pos hfits, hbody, body_cons, List.append_assoc]
      · intro before l after heq
        cases before with
        | nil =>
          obtain ⟨rfl, -⟩ := List.cons.inj heq
          exact hfits
        | cons b before =>
          obtain ⟨rfl, rfl⟩ := List.cons.inj heq
          simpa [Nat.add_assoc] using hkept before l after rfl
      · intro l after heq
        simpa [Nat.add_assoc] using hdropped l after heq
      · simpa [Nat.add_assoc] using hleft
    · refine ⟨[], line :: lines, rfl, by simp [bodyFrom, hfits, body], by simp, ?_, by simpa [body]⟩
      intro l after heq
      obtain ⟨rfl, -⟩ := List.cons.inj heq
      simpa [body] using hfits

/-- For a header of fewer than `FUZZ_LABEL_MAX - 64` bytes and lines of any lengths, no write
leaves the buffer, there is room for the marker at all times, and the text is the header, the
longest run of lines that all pass the room test, and the marker if and only if a line was
dropped. A failed deparse has no lines. -/
theorem fuzzDoDeparse_text (header : CString)
    (hheader : header.bytes.length < fuzzLabelMax - 64) {buf : Bytes}
    (hlength : buf.length = fuzzLabelMax) (hbuf : HoldsText buf header.bytes)
    (lines : Option (List CString)) :
    ∃ job kept dropped, fuzzDoDeparse ⟨buf, header.bytes.length⟩ lines = .ok job ∧
      job.buf.length = fuzzLabelMax ∧ lines.getD [] = kept ++ dropped ∧
      (∀ before line after, kept = before ++ line :: after →
        Fits (header.bytes ++ body before).length line) ∧
      (∀ line after, dropped = line :: after → ¬ Fits (header.bytes ++ body kept).length line) ∧
      (header.bytes ++ body kept).length + markerSize ≤ fuzzLabelMax ∧
      HoldsText job.buf (header.bytes ++ body kept ++ if dropped = [] then [] else marker) := by
  have hmarker : header.bytes.length + markerSize ≤ fuzzLabelMax := by
    have hsize : markerSize ≤ 64 := by decide
    omega
  obtain ⟨kept, dropped, hlines, hbody, hkept, hdropped, hleft⟩ :=
    bodyFrom_split header.bytes.length hmarker (lines.getD [])
  have hholds : Holds ⟨buf, header.bytes.length⟩ header.bytes := ⟨hlength, rfl, hbuf⟩
  obtain ⟨job, hrun, hjoblength, htext⟩ := fuzzDoDeparse_spec hholds hmarker lines
  refine ⟨job, kept, dropped, hrun, hjoblength, hlines, ?_, ?_, ?_, ?_⟩
  · simpa only [List.length_append] using hkept
  · simpa only [List.length_append] using hdropped
  · simpa only [List.length_append] using hleft
  · simpa only [hbody, List.append_assoc] using htext

/-- The longest line that fits, and an empty one after it that does not. -/
theorem fuzzDoDeparse_text_full :
    ∃ (full : CString) (job : DeparseJob), full.bytes.length = 4081 ∧
      fuzzDoDeparse ⟨List.replicate fuzzLabelMax 0, 0⟩ (some [full, ⟨[], List.not_mem_nil⟩]) =
        .ok job ∧ HoldsText job.buf (shown full ++ marker) := by
  have hnonzero : 0 ∉ List.replicate 4081 (0x61 : UInt8) := fun h =>
    absurd (List.eq_of_mem_replicate h) (by decide)
  have hlength : (List.replicate 4081 (0x61 : UInt8)).length = 4081 := List.length_replicate
  generalize List.replicate 4081 (0x61 : UInt8) = bytes at hnonzero hlength
  obtain ⟨job, kept, dropped, hjob, -, hlines, hkept, hdropped, -, htext⟩ :=
    fuzzDoDeparse_text ⟨[], List.not_mem_nil⟩ (by decide)
      (show (List.replicate fuzzLabelMax 0).length = fuzzLabelMax from List.length_replicate)
      ⟨List.not_mem_nil, List.replicate (fuzzLabelMax - 1) 0, rfl⟩
      (some [⟨bytes, hnonzero⟩, ⟨[], List.not_mem_nil⟩])
  refine ⟨⟨bytes, hnonzero⟩, job, hlength, hjob, ?_⟩
  have hroom : fuzzLabelMax - markerSize = 4087 := by decide
  rcases kept with _ | ⟨line, _ | ⟨line', rest⟩⟩
  · have hnot := hdropped _ _ hlines.symm
    simp [Fits, hroom, hlength, body] at hnot
  · obtain ⟨rfl, rfl⟩ := List.cons.inj hlines
    simpa [body] using htext
  · obtain ⟨rfl, htail⟩ := List.cons.inj hlines
    obtain ⟨rfl, -⟩ := List.cons.inj htail
    have hfits := hkept [_] _ _ rfl
    simp [Fits, hroom, hlength, body] at hfits

end ROssFuzz.LabelText
