import ROssFuzz.CStrings
import ROssFuzz.LimitedSplits

/-!
# The lines of the sort target

`set_lines` counts the newlines, up to a limit, and then cuts the input at them. The two
passes agree, so the lines are all of the input: what is beyond the limit stays in the last
line. A pointer is an index into the input, which may be one past its end. Every allocation
may be refused, which leaves `set_lines` by R's error, with the slots as they are by then.
-/

namespace ROssFuzz.SortLines
open CheckedOperations CStrings LimitedSplits

/-- `FUZZ_MAX_INPUT`. -/
def fuzzMaxInput : ℕ := 1024 * 16

/-- `FUZZ_MAX_LINES`. -/
def fuzzMaxLines : ℕ := 2000

/-- `N_CALLS`. -/
def nCalls : ℕ := 22

def newline : UInt8 := 0x0a

/-- The argument in each slot's call, a vector of strings. -/
structure Slots where
  args : List (List Bytes)
  length_eq : args.length = nCalls

/-- Whether each allocation is granted: the vector's, then those of the lines in turn. -/
abbrev Heap := ℕ → Bool

def allocVector (heap : Heap) (n : ℕ) : Except Stop (List Bytes) :=
  if heap 0 then .ok (List.replicate n []) else .error .error

/-- A pointer at `p` from the input's start. -/
def pointer (data : Bytes) (p : ℕ) : Except Stop ℕ :=
  if p ≤ data.length then .ok p else .error .fault

/-- Where `b` first occurs among the `n` bytes at `p`. -/
def memchr (data : Bytes) (p : ℕ) (b : UInt8) (n : ℕ) : Except Stop (Option ℕ) :=
  if p + n ≤ data.length then
    .ok (if b ∈ (data.drop p).take n then some (p + ((data.drop p).take n).idxOf b) else none)
  else .error .fault

/-- `Rf_mkCharLen`, which is an error for an embedded NUL. -/
def mkCharLen (granted : Bool) (data : Bytes) (p : ℕ) (length : ℤ) : Except Stop Bytes :=
  if length < 0 ∨ data.length < p + length then .error .fault
  else if 0 ∈ (data.drop p).take length.toNat ∨ granted = false then .error .error
  else .ok ((data.drop p).take length.toNat)

/-- The first loop, from the byte that `q` points at. -/
def countLines : ℕ → Bytes → ℕ
  | n, [] => n
  | n, b :: q => if n < fuzzMaxLines then countLines (if b = newline then n + 1 else n) q else n

/-- `nl`: where `memchr` found it, but the input's end for a `NULL` and in the last round. -/
def lineEnd (data : Bytes) (n i : ℕ) : Option ℕ → ℕ
  | some nl => if i = n - 1 then data.length else nl
  | none => data.length

/-- The second loop, with `k` of its `n` rounds left. -/
def cutLines (heap : Heap) (data : Bytes) (n : ℕ) :
    ℕ → ℕ → ℕ → List Bytes → Except Stop (List Bytes)
  | 0, _, _, lines => .ok lines
  | k + 1, i, p, lines => do
      let nl := lineEnd data n i (← memchr data p newline (data.length - p))
      let line ← mkCharLen (heap (i + 1)) data p (← asInt (nl - p))
      let lines ← store lines i line
      let p ← pointer data (if nl < data.length then nl + 1 else data.length)
      cutLines heap data n k (i + 1) p lines

/-- `SETCADR(calls[i], lines)`. -/
def setCadr (lines : List Bytes) (i : ℕ) : EStateM Stop Slots Unit :=
  if i < nCalls then
    modify fun s => ⟨s.args.set i lines, by rw [List.length_set, s.length_eq]⟩
  else throw .fault

def setCadrs (lines : List Bytes) : List ℕ → EStateM Stop Slots Unit
  | [] => pure ()
  | i :: is => do
      setCadr lines i
      setCadrs lines is

def setLines (heap : Heap) (data : Bytes) : EStateM Stop Slots Unit := do
  let n := countLines 1 data
  let lines ← ofExcept (allocVector heap n)
  let lines ← ofExcept (cutLines heap data n n 0 0 lines)
  setCadrs lines (List.range nCalls)

/-- As `fuzz_target_init` leaves them: `character(0)`. -/
def Slots.initial : Slots := ⟨List.replicate nCalls [], List.length_replicate⟩

/-- The slot that is evaluated, if any. `R_ToplevelExec` returns from an error of R's. -/
def fuzzTargetRun (heap : Heap) : Bytes → EStateM Stop Slots (Option ℕ)
  | [] => pure none
  | slot :: data => fun s =>
      if data.length < 1 ∨ fuzzMaxInput < data.length + 1 ∨ 0 ∈ data then .ok none s
      else match (setLines heap data).run s with
        | .ok () t => .ok (some (slot.toNat % nCalls)) t
        | .error .error t => .ok none t
        | .error .fault t => .error .fault t

/-- The lines of a text: as many as its newlines make, up to the limit. -/
structure Splits (data : Bytes) (lines : List Bytes) : Prop where
  length_eq : lines.length = min (1 + data.count newline) fuzzMaxLines
  unbroken : ∀ line ∈ lines.dropLast, newline ∉ line
  joined : [newline].intercalate lines = data

/-- Every allocation that the text needs is granted, and no line has a NUL in it. -/
def Granted (heap : Heap) (data : Bytes) : Prop :=
  0 ∉ data ∧ ∀ k < min (1 + data.count newline) fuzzMaxLines + 1, heap k = true

instance (heap : Heap) (data : Bytes) : Decidable (Granted heap data) :=
  inferInstanceAs (Decidable (_ ∧ _))

/-! ### The two loops -/

theorem countLines_eq (n : ℕ) (q : Bytes) (h : n ≤ fuzzMaxLines) :
    countLines n q = min (n + q.count newline) fuzzMaxLines := by
  induction q generalizing n with
  | nil => simp [countLines, h]
  | cons b q ih =>
    rw [countLines]
    split
    · rw [ih _ (by split <;> omega), List.count_cons]
      split <;> simp_all
      omega
    · rw [List.count_cons]
      omega

section Cut
variable {heap : Heap} {data : Bytes} {n : ℕ}

theorem memchr_append {p : ℕ} {before after : Bytes} (hp : p ≤ data.length)
    (hsplit : data.drop p = before ++ newline :: after) (hbefore : newline ∉ before) :
    memchr data p newline (data.length - p) = .ok (some (p + before.length)) := by
  have htake : (data.drop p).take (data.length - p) = data.drop p :=
    List.take_of_length_le (by simp)
  rw [memchr, if_pos (by omega), htake, hsplit, if_pos (by simp),
    List.idxOf_append_of_notMem hbefore]
  simp

theorem mkCharLen_eq {granted : Bool} {p length : ℕ} {line : Bytes}
    (hle : p + length ≤ data.length) (hline : (data.drop p).take length = line) :
    mkCharLen granted data p length =
      if 0 ∉ line ∧ granted = true then .ok line else .error .error := by
  rw [mkCharLen, if_neg (by omega), Int.toNat_natCast, hline]
  cases granted <;> by_cases h : 0 ∈ line <;> simp [h]

/-- A round: what it takes as the line, and where it goes on. -/
theorem cutLines_round {k i p nl : ℕ} {found : Option ℕ} {line : Bytes} {lines : List Bytes}
    (hlen : (data.length : ℤ) ≤ intMax) (hi : i < lines.length)
    (hfound : memchr data p newline (data.length - p) = .ok found)
    (hnl : lineEnd data n i found = nl) (hle : p ≤ nl ∧ nl ≤ data.length)
    (hline : (data.drop p).take (nl - p) = line) :
    cutLines heap data n (k + 1) i p lines =
      if 0 ∉ line ∧ heap (i + 1) = true then
        cutLines heap data n k (i + 1) (if nl < data.length then nl + 1 else data.length)
          (lines.set i line)
      else .error .error := by
  obtain ⟨hp, hend⟩ := hle
  have hint : asInt ((nl : ℤ) - p) = .ok ((nl - p : ℕ) : ℤ) := by
    rw [asInt_of_mem (by unfold intMin; omega) (by omega), Int.ofNat_sub hp]
  have hmk : mkCharLen (heap (i + 1)) data p ((nl - p : ℕ) : ℤ) = _ :=
    mkCharLen_eq (by omega) hline
  have hpointer : pointer data (if nl < data.length then nl + 1 else data.length) =
      .ok (if nl < data.length then nl + 1 else data.length) := by
    rw [pointer, if_pos (by split <;> omega)]
  simp only [cutLines, hfound, bind, Except.bind, hnl, hint, hmk]
  by_cases h : 0 ∉ line ∧ heap (i + 1) = true
  · simp only [if_pos h, store_of_lt hi, hpointer]
  · simp only [if_neg h]

private theorem length_of_drop {p : ℕ} {before after : Bytes}
    (hsplit : data.drop p = before ++ newline :: after) :
    data.length - p = before.length + (after.length + 1) := by
  simpa using congrArg List.length hsplit

/-- A round that finds a newline and is not the last. -/
theorem cutLines_cut {k i p : ℕ} {before after : Bytes} {lines : List Bytes}
    (hlen : (data.length : ℤ) ≤ intMax) (hp : p ≤ data.length)
    (hsplit : data.drop p = before ++ newline :: after) (hbefore : newline ∉ before)
    (hi : i + (k + 2) = n) (hlines : i < lines.length) :
    cutLines heap data n (k + 2) i p lines =
      if 0 ∉ before ∧ heap (i + 1) = true then
        cutLines heap data n (k + 1) (i + 1) (p + before.length + 1) (lines.set i before)
      else .error .error := by
  have hlength := length_of_drop hsplit
  have hline : (data.drop p).take (p + before.length - p) = before := by
    rw [hsplit, Nat.add_sub_cancel_left, List.take_left]
  rw [cutLines_round hlen hlines (memchr_append hp hsplit hbefore) (if_neg (by omega))
    ⟨by omega, by omega⟩ hline, if_pos (show p + before.length < data.length by omega)]

theorem cutLines_last {i p : ℕ} {lines : List Bytes}
    (hlen : (data.length : ℤ) ≤ intMax) (hp : p ≤ data.length)
    (hi : i + 1 = n) (hlines : i < lines.length) :
    cutLines heap data n 1 i p lines =
      if 0 ∉ data.drop p ∧ heap (i + 1) = true then .ok (lines.set i (data.drop p))
      else .error .error := by
  obtain ⟨found, hfound⟩ : ∃ found, memchr data p newline (data.length - p) = .ok found :=
    ⟨_, if_pos (by omega)⟩
  have hline : (data.drop p).take (data.length - p) = data.drop p :=
    List.take_of_length_le (by simp)
  rw [cutLines_round hlen hlines hfound ?_ ⟨hp, le_rfl⟩ hline]
  · rfl
  · cases found with
    | none => rfl
    | some nl => exact if_pos (by omega)

theorem cutLines_eq (hlen : (data.length : ℤ) ≤ intMax) (k i p : ℕ) (done : List Bytes)
    (hp : p ≤ data.length) (hdone : done.length = i) (hi : i + (k + 1) = n)
    (hcount : k ≤ (data.drop p).count newline) :
    cutLines heap data n (k + 1) i p (done ++ .replicate (k + 1) []) =
      if 0 ∉ data.drop p ∧ ∀ j < k + 1, heap (i + 1 + j) = true then
        .ok (done ++ cuts newline k (data.drop p))
      else .error .error := by
  induction k generalizing i p done with
  | zero =>
    rw [cutLines_last hlen hp hi (by simp; omega)]
    simp [cuts, ← hdone]
  | succ k ih =>
    have hmem : newline ∈ data.drop p := List.count_pos_iff.mp (by omega)
    obtain ⟨before, after, hsplit, hbefore⟩ := List.eq_append_cons_of_mem hmem
    have hlength := length_of_drop hsplit
    have hafter : data.drop (p + before.length + 1) = after := by
      rw [Nat.add_assoc, ← List.drop_drop, hsplit, ← List.singleton_append, ← List.append_assoc]
      exact List.drop_left' (by simp)
    have hset : (done ++ .replicate (k + 2) []).set i before =
        (done ++ [before]) ++ .replicate (k + 1) [] := by
      rw [← hdone, List.set_append_right _ _ (le_refl _)]
      simp [List.replicate_succ]
    have hrest : k ≤ (data.drop (p + before.length + 1)).count newline := by
      rw [hsplit, List.count_append, List.count_cons_self, List.count_eq_zero.mpr hbefore] at hcount
      rw [hafter]
      omega
    rw [cutLines_cut hlen hp hsplit hbefore hi (by simp; omega), hset,
      ih (i + 1) _ _ (by omega) (by simp [hdone]) (by omega) hrest, hafter, hsplit,
      cuts_append _ _ hbefore]
    have hgranted : (∀ j < k + 1 + 1, heap (i + 1 + j) = true) ↔
        heap (i + 1) = true ∧ ∀ j < k + 1, heap (i + 1 + 1 + j) = true := by
      rw [Nat.forall_lt_succ_left]
      simp only [Nat.add_zero, Nat.add_assoc, Nat.add_comm 1]
    have hnonzero : 0 ∉ before ++ newline :: after ↔ 0 ∉ before ∧ 0 ∉ after := by
      have hne : 0 ≠ newline := by decide
      simp [hne]
    simp only [hgranted, hnonzero, List.append_assoc, List.singleton_append, ← ite_and]
    exact if_congr and_and_and_comm rfl rfl

end Cut

/-! ### The whole of it -/

theorem setCadrs_eq (lines : List Bytes) (is : List ℕ) (h : ∀ i ∈ is, i < nCalls) (s : Slots) :
    ∃ t, (setCadrs lines is).run s = .ok () t ∧
      ∀ i < nCalls, t.args[i]? = if i ∈ is then some lines else s.args[i]? := by
  induction is generalizing s with
  | nil => exact ⟨s, rfl, by simp⟩
  | cons j is ih =>
    have hj := h j List.mem_cons_self
    obtain ⟨t, hrun, ht⟩ := ih (fun i hi => h i (List.mem_cons_of_mem _ hi))
      ⟨s.args.set j lines, by rw [List.length_set, s.length_eq]⟩
    refine ⟨t, ?_, fun i hi => ?_⟩
    · rw [setCadrs, setCadr, if_pos hj]
      exact hrun
    · rw [ht i hi]
      by_cases hmem : i ∈ is
      · simp [hmem]
      · by_cases hij : i = j
        · subst hij
          simp [hmem, s.length_eq, hi]
        · simp [hmem, hij, List.getElem?_set_ne (Ne.symm hij)]

/-- The lines. -/
theorem splits_cuts (data : Bytes) :
    Splits data (cuts newline (min (1 + data.count newline) fuzzMaxLines - 1) data) := by
  refine ⟨?_, notMem_of_mem_dropLast _ _, intercalate_cuts _ _⟩
  rw [length_cuts]
  have hmax : 0 < fuzzMaxLines := by decide
  omega

@[simp] theorem run_ofExcept_ok {β γ : Type} (x : β) (f : β → EStateM Stop Slots γ) (s : Slots) :
    (ofExcept (Except.ok x : Except Stop β) >>= f).run s = (f x).run s := rfl

@[simp] theorem run_ofExcept_error {β γ : Type} (stop : Stop) (f : β → EStateM Stop Slots γ)
    (s : Slots) : (ofExcept (.error stop : Except Stop β) >>= f).run s = .error stop s := rfl

/-- The vector is complete before the first slot is touched. -/
theorem setLines_eq (heap : Heap) (data : Bytes) (hlen : (data.length : ℤ) ≤ intMax) (s : Slots) :
    (setLines heap data).run s =
      if Granted heap data then
        (setCadrs (cuts newline (min (1 + data.count newline) fuzzMaxLines - 1) data)
          (List.range nCalls)).run s
      else .error .error s := by
  have hmax : 0 < fuzzMaxLines := by decide
  obtain ⟨k, hk⟩ : ∃ k, min (1 + data.count newline) fuzzMaxLines = k + 1 :=
    ⟨min (1 + data.count newline) fuzzMaxLines - 1, by omega⟩
  have hcount : countLines 1 data = k + 1 := by rw [countLines_eq 1 data hmax, hk]
  have hcut : cutLines heap data (k + 1) (k + 1) 0 0 (.replicate (k + 1) []) = _ :=
    cutLines_eq hlen k 0 0 [] (Nat.zero_le _) rfl (Nat.zero_add _) (by rw [List.drop_zero]; omega)
  have hgranted : Granted heap data ↔
      heap 0 = true ∧ 0 ∉ data.drop 0 ∧ ∀ j < k + 1, heap (0 + 1 + j) = true := by
    rw [Granted, hk, Nat.forall_lt_succ_left, List.drop_zero]
    simp only [Nat.zero_add, Nat.add_comm 1]
    exact and_left_comm
  rw [hk, Nat.add_sub_cancel, if_congr hgranted rfl rfl, ite_and]
  by_cases h₀ : heap 0 = true
  · simp only [setLines, hcount, allocVector, if_pos h₀, run_ofExcept_ok, hcut]
    split <;> rfl
  · simp only [setLines, hcount, allocVector, if_neg h₀, run_ofExcept_error]

/-- With the allocations granted every slot gets the lines. -/
theorem setLines_granted {heap : Heap} {data : Bytes} (hlen : (data.length : ℤ) ≤ intMax)
    (h : Granted heap data) (s : Slots) :
    ∃ lines t, (setLines heap data).run s = .ok () t ∧
      (∀ arg ∈ t.args, arg = lines) ∧ Splits data lines := by
  rw [setLines_eq heap data hlen s, if_pos h]
  obtain ⟨t, hrun, ht⟩ := setCadrs_eq
    (cuts newline (min (1 + data.count newline) fuzzMaxLines - 1) data) (List.range nCalls)
    (fun i hi => List.mem_range.mp hi) s
  refine ⟨_, t, hrun, fun arg harg => ?_, splits_cuts data⟩
  obtain ⟨i, hi⟩ := List.mem_iff_getElem?.mp harg
  have hlt : i < nCalls := by
    rw [← t.length_eq]
    exact (List.getElem?_eq_some_iff.mp hi).1
  rw [ht i hlt, if_pos (List.mem_range.mpr hlt)] at hi
  exact (Option.some.inj hi).symm

/-- What the target promises `set_lines`: no more bytes than an `int` counts. So a run makes
no access outside the input, and it either leaves the slots alone or gives all of them the
lines and evaluates one. -/
theorem fuzzTargetRun_splits (heap : Heap) (input : Bytes) (s : Slots) :
    (fuzzTargetRun heap input).run s = .ok none s ∨
      ∃ lines t slot, (fuzzTargetRun heap input).run s = .ok (some slot) t ∧ slot < nCalls ∧
        (∀ arg ∈ t.args, arg = lines) ∧ Splits input.tail lines := by
  cases input with
  | nil => exact .inl rfl
  | cons slot data =>
    by_cases hguard : data.length < 1 ∨ fuzzMaxInput < data.length + 1 ∨ 0 ∈ data
    · exact .inl (if_pos hguard)
    · have hmax : (fuzzMaxInput : ℤ) ≤ intMax := by decide
      have hlen : (data.length : ℤ) ≤ intMax := by omega
      have hrun : (fuzzTargetRun heap (slot :: data)).run s =
          match (setLines heap data).run s with
          | .ok () t => .ok (some (slot.toNat % nCalls)) t
          | .error .error t => .ok none t
          | .error .fault t => .error .fault t := if_neg hguard
      by_cases h : Granted heap data
      · obtain ⟨lines, t, hlines, hargs, hsplits⟩ := setLines_granted hlen h s
        rw [hlines] at hrun
        exact .inr ⟨lines, t, _, hrun, Nat.mod_lt _ (by decide), hargs, hsplits⟩
      · rw [setLines_eq heap data hlen s, if_neg h] at hrun
        exact .inl hrun

/-- `set_lines` loses nothing, for every text whose length is an `int`: no pointer passes its
end; with the allocations granted every slot gets the lines, and otherwise none does. -/
theorem setLines_splits (heap : Heap) (data : Bytes) (hlen : (data.length : ℤ) ≤ intMax)
    (s : Slots) :
    (Granted heap data → ∃ lines t, (setLines heap data).run s = .ok () t ∧
      (∀ arg ∈ t.args, arg = lines) ∧ Splits data lines) ∧
    (¬ Granted heap data → (setLines heap data).run s = .error .error s) :=
  ⟨fun h => setLines_granted hlen h s, fun h => by rw [setLines_eq heap data hlen s, if_neg h]⟩

/-- A NUL is an error of `Rf_mkCharLen`, with every allocation granted: there are no lines. -/
theorem setLines_nul :
    (setLines (fun _ => true) [0]).run .initial = .error .error .initial ∧
      ¬ ∃ lines t, (setLines (fun _ => true) [0]).run .initial = .ok () t ∧
        (∀ arg ∈ t.args, arg = lines) ∧ Splits [0] lines := by
  have hrun : (setLines (fun _ => true) [0]).run .initial = .error .error .initial := rfl
  refine ⟨hrun, ?_⟩
  rintro ⟨lines, t, h, -⟩
  rw [hrun] at h
  cases h

/-- More than 2000 newlines, the last at the end: 2000 lines, and then the last allocation
refused. -/
theorem setLines_splits_surplus :
    (∃ lines t, (setLines (fun _ => true) (.replicate 2500 newline)).run .initial = .ok () t ∧
      (∀ arg ∈ t.args, arg = lines) ∧ lines.length = 2000) ∧
    (setLines (fun k => k < 2000) (.replicate 2500 newline)).run .initial =
      .error .error .initial := by
  have hlen : (((.replicate 2500 newline : Bytes).length : ℕ) : ℤ) ≤ intMax := by
    rw [List.length_replicate]
    decide
  have hcount : (.replicate 2500 newline : Bytes).count newline = 2500 :=
    List.count_replicate_self
  constructor
  · obtain ⟨lines, t, hrun, hargs, hsplits⟩ :=
      (setLines_splits (fun _ => true) _ hlen .initial).1
        ⟨fun h => absurd (List.eq_of_mem_replicate h) (by decide), fun _ _ => rfl⟩
    refine ⟨lines, t, hrun, hargs, ?_⟩
    rw [hsplits.length_eq, hcount]
    rfl
  · refine (setLines_splits (fun k => k < 2000) _ hlen .initial).2 fun h => ?_
    have hlast := h.2 2000 (by rw [hcount]; decide)
    simp at hlast

end ROssFuzz.SortLines
