import ROssFuzz.ColumnMajor

/-!
# The matrix of read.dcf

`do_readDCF` collects the fields of a file of records into a matrix with a column for each
record, and transposes it at the end. The rows of the matrix are a capacity that doubles as
fields are discovered; in the code this replaces, they were the fields, one more for each.
What a line does to the matrix is all that is kept of it. The integers are exact.

Both are compared with a table of cells that has no storage at all.
-/

namespace ROssFuzz.DcfMatrix
open CheckedOperations ColumnMajor

/-- What a line does. -/
inductive Op
  /-- a blank line, which ends a record that has begun -/
  | blank
  /-- a line that stores nothing -/
  | other
  /-- a line of the known field `m`, or one that continues it: the cell's new text from its old -/
  | set (m : ℕ) (text : Option String → String)
  /-- a previously unseen field -/
  | add (name : String) (text : String)

/-- `allocMatrixNA` -/
def allocMatrixNA (nr nc : ℕ) : List (Option String) := List.replicate (nr * nc) none

/-- `transferVector` -/
def transferVector (s t : List (Option String)) : Except Stop (List (Option String)) :=
  transfer t ((List.range t.length).map fun i => (i, i)) s

/-- `allocVector(STRSXP, n)` -/
def allocStrings (n : ℕ) : List String := List.replicate n ""

/-- The pairs of the loop `for (nr = 0; nr < rows; nr++) for (nc = 0; nc < cols; nc++)`. -/
def forRowsCols (rows cols : ℕ) (entry : ℕ → ℕ → ℕ × ℕ) : List (ℕ × ℕ) :=
  (List.range rows).flatMap fun nr => (List.range cols).map fun nc => entry nr nc

/-! ### The doubling matrix -/

structure State where
  nwhat : ℕ
  nwhatcap : ℕ
  nret : ℕ
  k : ℕ
  blankSkip : Bool
  what : List String
  retval : List (Option String)

def State.start (what : List String) : State :=
  ⟨what.length, what.length, 20, 0, true, what, allocMatrixNA what.length 20⟩

def State.blank (s : State) : Except Stop State :=
  if s.blankSkip then .ok s
  else do
    let k := s.k + 1
    let s := { s with k := k, blankSkip := true }
    if k > s.nret - 1 then
      let nret := s.nret * 2
      let retval2 ← transferVector (allocMatrixNA s.nwhatcap nret) s.retval
      .ok { s with nret := nret, retval := retval2 }
    else .ok s

/-- A new value does without the read. -/
def State.set (s : State) (m : ℕ) (text : Option String → String) : Except Stop State := do
  let old ← load s.retval (m + s.nwhatcap * s.k)
  let retval ← store s.retval (m + s.nwhatcap * s.k) (some (text old))
  .ok { s with retval := retval, blankSkip := false }

/-- `oldcap ? 2 * oldcap : 16` -/
def doubledCap (oldcap : ℕ) : ℕ := if oldcap ≠ 0 then 2 * oldcap else 16

/-- The block behind `if(nwhat == nwhatcap)`; its loop fills both copies. -/
def State.grow (s : State) : Except Stop State := do
  let oldcap := s.nwhatcap
  let nwhatcap := doubledCap oldcap
  let what2 ← transfer s.what ((List.range s.nwhat).map fun nr => (nr, nr)) (allocStrings nwhatcap)
  let retval2 ← transfer s.retval
    (forRowsCols s.nwhat (s.k + 1) fun nr nc => (nr + nc * oldcap, nr + nc * nwhatcap))
    (allocMatrixNA nwhatcap s.nret)
  .ok { s with nwhatcap := nwhatcap, what := what2, retval := retval2 }

def State.makeRoom (s : State) : Except Stop State :=
  if s.nwhat = s.nwhatcap then s.grow else .ok s

def State.add (s : State) (name text : String) : Except Stop State := do
  let s ← s.makeRoom
  let what ← store s.what s.nwhat name
  let nwhat := s.nwhat + 1
  let lastm := nwhat - 1
  let retval ← store s.retval (lastm + s.nwhatcap * s.k) (some text)
  .ok { s with what := what, nwhat := nwhat, retval := retval, blankSkip := false }

def State.line (s : State) : Op → Except Stop State
  | .blank => s.blank
  | .other => .ok { s with blankSkip := false }
  | .set m text => s.set m text
  | .add name text => s.add name text

/-- `if(!blank_skip) k++;` -/
def records (k : ℕ) (blankSkip : Bool) : ℕ := if blankSkip then k else k + 1

/-- The names of the fields, the number of records, and the transposed matrix. -/
def State.finish (s : State) : Except Stop (List String × ℕ × List (Option String)) := do
  let k := records s.k s.blankSkip
  let retval2 ← transfer s.retval
    (forRowsCols s.nwhat k fun nr nc => (nr + nc * s.nwhatcap, nc + nr * k))
    (allocMatrixNA k s.nwhat)
  .ok (s.what.take s.nwhat, k, retval2)

def readDCF (what : List String) (ops : List Op) :
    Except Stop (List String × ℕ × List (Option String)) := do
  (← ops.foldlM State.line (State.start what)).finish

/-! ### The replaced matrix -/

structure OldState where
  nwhat : ℕ
  nret : ℕ
  k : ℕ
  blankSkip : Bool
  what : List String
  retval : List (Option String)

def OldState.start (what : List String) : OldState :=
  ⟨what.length, 20, 0, true, what, allocMatrixNA what.length 20⟩

def OldState.blank (s : OldState) : Except Stop OldState :=
  if s.blankSkip then .ok s
  else do
    let k := s.k + 1
    let s := { s with k := k, blankSkip := true }
    if k > s.nret - 1 then
      let nret := s.nret * 2
      let retval2 ← transferVector (allocMatrixNA s.what.length nret) s.retval
      .ok { s with nret := nret, retval := retval2 }
    else .ok s

def OldState.set (s : OldState) (m : ℕ) (text : Option String → String) :
    Except Stop OldState := do
  let old ← load s.retval (m + s.nwhat * s.k)
  let retval ← store s.retval (m + s.nwhat * s.k) (some (text old))
  .ok { s with retval := retval, blankSkip := false }

/-- `copyVector` starts over when it has copied all of `t`. -/
def copyVector (s t : List String) : Except Stop (List String) :=
  transfer t ((List.range s.length).map fun i => (i % t.length, i)) s

/-- Every previously unseen field copies all of the matrix into one with a row more. -/
def OldState.grow (s : OldState) : Except Stop (List String × List (Option String)) :=
  let what2 := allocStrings (s.nwhat + 1)
  let retval2 := allocMatrixNA (s.nwhat + 1) s.nret
  if s.nwhat > 0 then do
    let what2 ← copyVector what2 s.what
    let retval2 ← transfer s.retval
      (forRowsCols s.nwhat s.nret fun nr nc => (nr + nc * s.nwhat, nr + nc * (s.nwhat + 1))) retval2
    .ok (what2, retval2)
  else .ok (what2, retval2)

def OldState.add (s : OldState) (name text : String) : Except Stop OldState := do
  let (what2, retval2) ← s.grow
  let what ← store what2 s.nwhat name
  let nwhat := s.nwhat + 1
  let lastm := nwhat - 1
  let retval ← store retval2 (lastm + nwhat * s.k) (some text)
  .ok { s with what := what, nwhat := nwhat, retval := retval, blankSkip := false }

def OldState.line (s : OldState) : Op → Except Stop OldState
  | .blank => s.blank
  | .other => .ok { s with blankSkip := false }
  | .set m text => s.set m text
  | .add name text => s.add name text

/-- `copyMatrix` by rows. -/
def OldState.finish (s : OldState) : Except Stop (List String × ℕ × List (Option String)) := do
  let k := records s.k s.blankSkip
  let retval2 ← transfer s.retval
    (forRowsCols s.what.length k fun nr nc => (nc * s.what.length + nr, nc + nr * k))
    (allocMatrixNA k s.what.length)
  .ok (s.what, k, retval2)

def oldReadDCF (what : List String) (ops : List Op) :
    Except Stop (List String × ℕ × List (Option String)) := do
  (← ops.foldlM OldState.line (OldState.start what)).finish

/-! ### The table -/

/-- Records and fields, with the text last stored for each pair. -/
structure Table where
  names : List String
  k : ℕ
  blankSkip : Bool
  cell : ℕ × ℕ → Option String

def Table.start (what : List String) : Table := ⟨what, 0, true, fun _ => none⟩

def Table.put (t : Table) (m : ℕ) (text : String) : Table :=
  { t with cell := Function.update t.cell (t.k, m) (some text), blankSkip := false }

def Table.line (t : Table) : Op → Table
  | .blank => if t.blankSkip then t else { t with k := t.k + 1, blankSkip := true }
  | .other => { t with blankSkip := false }
  | .set m text => t.put m (text (t.cell (t.k, m)))
  | .add name text => { t.put t.names.length text with names := t.names ++ [name] }

def Table.result (t : Table) : List String × ℕ × List (Option String) :=
  let k := records t.k t.blankSkip
  (t.names, k, ofCells k t.names.length fun c => t.cell (c.2, c.1))

/-- A line of a known field is one of a field that there is, `n` of them so far. -/
def Performed : ℕ → List Op → Prop
  | _, [] => True
  | n, .set m _ :: ops => m < n ∧ Performed n ops
  | n, .add _ _ :: ops => Performed (n + 1) ops
  | n, _ :: ops => Performed n ops

/-! ### Both matrices hold the table -/

/-- The names and the matrix of a table, with `cap` rows and `nret` columns. -/
structure Represents (t : Table) (cap nret : ℕ) (what : List String)
    (retval : List (Option String)) : Prop where
  k_lt : t.k < nret
  names_le : t.names.length ≤ cap
  what_length : what.length = cap
  what_get : ∀ j < t.names.length, what[j]? = t.names[j]?
  cells : Holds cap nret t.cell retval
  /-- nothing is stored yet -/
  outside : ∀ c, t.k < c.1 ∨ t.names.length ≤ c.2 → t.cell c = none

variable {t : Table} {cap nret : ℕ} {what : List String} {retval : List (Option String)}

theorem represents_start (what : List String) :
    Represents (.start what) what.length 20 what (allocMatrixNA what.length 20) :=
  ⟨Nat.zero_lt_succ 19, le_rfl, rfl, fun _ _ => rfl, holds_replicate _ _ _, fun _ _ => rfl⟩

/-- The next record needs no cell of its own if there is a column for it. -/
private theorem Represents.next (h : Represents t cap nret what retval) (hk : t.k + 1 < nret) :
    Represents { t with k := t.k + 1, blankSkip := true } cap nret what retval := by
  obtain ⟨-, hnames, hlength, hget, hcells, hout⟩ := h
  exact ⟨hk, hnames, hlength, hget, hcells, fun c hc => hout c (by simp only at hc; omega)⟩

/-- Twice the columns. -/
private theorem Represents.transferVector (h : Represents t cap nret what retval) :
    ∃ retval2, transferVector (allocMatrixNA cap (nret * 2)) retval = .ok retval2 ∧
      Represents t cap (nret * 2) what retval2 := by
  obtain ⟨hk, hnames, hlength, hget, hcells, hout⟩ := h
  obtain ⟨retval2, hretval2, hcells2⟩ := hcells.extend (nret * 2) (by omega) none t.cell fun c _ => by
      split
      · rfl
      · exact hout c (.inl (by omega))
  exact ⟨retval2, hretval2, by omega, hnames, hlength, hget, hcells2, hout⟩

/-- A cell of the current record. -/
private theorem Represents.put (h : Represents t cap nret what retval) {m : ℕ}
    (hm : m < t.names.length) (text : String) :
    ∃ out, store retval (m + cap * t.k) (some text) = .ok out ∧
      Represents (t.put m text) cap nret what out := by
  obtain ⟨hk, hnames, hlength, hget, hcells, hout⟩ := h
  obtain ⟨out, hstore, hcells'⟩ := hcells.store (c := (t.k, m)) hk (by simp only; omega) (some text)
  rw [place, Nat.mul_comm] at hstore
  refine ⟨out, hstore, hk, hnames, hlength, hget, hcells', fun c hc => ?_⟩
  have hne : c ≠ (t.k, m) := by
    rintro rfl
    simp only [Table.put] at hc
    omega
  simp only [Table.put, Function.update_of_ne hne]
  exact hout c hc

/-- A cell of the current record in a row that no field has yet. -/
private theorem Represents.add (h : Represents t cap nret what retval)
    (hcap : t.names.length < cap) (name text : String) :
    ∃ what' out, store what t.names.length name = .ok what' ∧
      store retval (t.names.length + cap * t.k) (some text) = .ok out ∧
      Represents (t.line (.add name text)) cap nret what' out := by
  obtain ⟨hk, hnames, hlength, hget, hcells, hout⟩ := h
  have hroom : t.names.length < what.length := by omega
  obtain ⟨out, hstore, hcells'⟩ := hcells.store (c := (t.k, t.names.length)) hk hcap (some text)
  rw [place, Nat.mul_comm] at hstore
  refine ⟨_, out, store_of_lt hroom name, hstore, hk, ?_, ?_, fun j hj => ?_, hcells', fun c hc => ?_⟩
  · simp only [Table.line, List.length_append, List.length_singleton]
    omega
  · rw [List.length_set, hlength]
  · simp only [Table.line, List.length_append, List.length_singleton] at hj ⊢
    by_cases hlast : j = t.names.length
    · rw [hlast, List.getElem?_set_self hroom, List.getElem?_concat_length]
    · rw [List.getElem?_set_ne (Ne.symm hlast), hget j (by omega),
        List.getElem?_append_left (by omega)]
  · simp only [Table.line, Table.put, List.length_append, List.length_singleton] at hc ⊢
    have hne : c ≠ (t.k, t.names.length) := by
      rintro rfl
      simp only at hc
      omega
    rw [Function.update_of_ne hne]
    exact hout c (by omega)

/-- The moves of two nested loops, as pairs of cells. -/
private theorem mem_loops {rows cols : ℕ} {entry : ℕ → ℕ → (ℕ × ℕ) × (ℕ × ℕ)}
    {m : (ℕ × ℕ) × (ℕ × ℕ)} :
    m ∈ ((List.range rows).flatMap fun nr => (List.range cols).map fun nc => entry nr nc) ↔
      ∃ nr nc, nr < rows ∧ nc < cols ∧ entry nr nc = m := by
  simp only [List.mem_flatMap, List.mem_range, List.mem_map]
  constructor
  · rintro ⟨nr, hnr, nc, hnc, heq⟩
    exact ⟨nr, nc, hnr, hnc, heq⟩
  · rintro ⟨nr, nc, hnr, hnc, heq⟩
    exact ⟨nr, hnr, nc, hnc, heq⟩

/-- The loops of a growth: the cells up to the current record go to a matrix with more rows. -/
private theorem Represents.restride (h : Represents t cap nret what retval) (cap' cols : ℕ)
    (hcap : t.names.length ≤ cap') (hcols : cols ≤ nret) (hk : t.k < cols) :
    ∃ retval2, transfer retval
        (forRowsCols t.names.length cols fun nr nc => (nr + nc * cap, nr + nc * cap'))
        (allocMatrixNA cap' nret) = .ok retval2 ∧ Holds cap' nret t.cell retval2 := by
  obtain ⟨-, hnames, -, -, hcells, hout⟩ := h
  have hmoves : (forRowsCols t.names.length cols fun nr nc => (nr + nc * cap, nr + nc * cap')) =
      ((List.range t.names.length).flatMap fun nr => (List.range cols).map fun nc =>
        ((nc, nr), (nc, nr))).map fun m => (place cap m.1, place cap' m.2) := by
    simp only [forRowsCols, List.map_flatMap, List.map_map]
    rfl
  rw [hmoves]
  have hmem {m : (ℕ × ℕ) × (ℕ × ℕ)} : m ∈ ((List.range t.names.length).flatMap fun nr =>
      (List.range cols).map fun nc => ((nc, nr), (nc, nr))) ↔
        m.1 = m.2 ∧ m.2.2 < t.names.length ∧ m.2.1 < cols := by
    rw [mem_loops]
    constructor
    · rintro ⟨nr, nc, hnr, hnc, rfl⟩
      exact ⟨rfl, hnr, hnc⟩
    · rintro ⟨heq, hnr, hnc⟩
      exact ⟨m.2.2, m.2.1, hnr, hnc, Prod.ext heq.symm rfl⟩
  refine hcells.transfer (holds_replicate cap' nret none) (fun m hm => ?_) (fun m hm => ?_)
    (fun c _ _ hc => ?_) fun m hm m' hm' heq => ?_
  · obtain ⟨heq, hrow, hcol⟩ := hmem.mp hm
    rw [heq]
    omega
  · rw [(hmem.mp hm).1]
  · -- not copied, and nothing is stored there
    apply hout
    by_contra hin
    exact hc (c, c) (hmem.mpr ⟨rfl, by simp only; omega, by simp only; omega⟩) rfl
  · rw [(hmem.mp hm).1, (hmem.mp hm').1, heq]

/-- The names go along, in front of spare entries. -/
private theorem names_kept {names : List String} (hget : ∀ j < names.length, what[j]? = names[j]?)
    (f : ℕ → ℕ) {n size : ℕ} (hin : ∀ i < n, f i < what.length) (hsize : n ≤ size)
    (hnames : names.length ≤ n) (hsame : ∀ j < names.length, f j = j) :
    ∃ what2, transfer what ((List.range n).map fun i => (f i, i)) (allocStrings size) = .ok what2 ∧
      what2.length = size ∧ ∀ j < names.length, what2[j]? = names[j]? := by
  obtain ⟨what2, hwhat2, hlength, hto, -⟩ := transfer_range what (allocStrings size) f hin
    (by rwa [allocStrings, List.length_replicate])
  refine ⟨what2, hwhat2, by rw [hlength, allocStrings, List.length_replicate], fun j hj => ?_⟩
  rw [hto j (Nat.lt_of_lt_of_le hj hnames), hsame j hj, hget j hj]

/-- The transposed matrix of the first records. -/
private theorem Represents.transpose (h : Represents t cap nret what retval) {k : ℕ}
    (hk : k ≤ nret) :
    transfer retval (forRowsCols t.names.length k fun nr nc => (nr + nc * cap, nc + nr * k))
        (allocMatrixNA k t.names.length) =
      .ok (ofCells k t.names.length fun c => t.cell (c.2, c.1)) := by
  have hmoves : (forRowsCols t.names.length k fun nr nc => (nr + nc * cap, nc + nr * k)) =
      ((List.range t.names.length).flatMap fun nr => (List.range k).map fun nc =>
        ((nc, nr), (nr, nc))).map fun m => (place cap m.1, place k m.2) := by
    simp only [forRowsCols, List.map_flatMap, List.map_map]
    rfl
  have hmem {m : (ℕ × ℕ) × (ℕ × ℕ)} : m ∈ ((List.range t.names.length).flatMap fun nr =>
      (List.range k).map fun nc => ((nc, nr), (nr, nc))) ↔
        m.1 = (m.2.2, m.2.1) ∧ m.2.1 < t.names.length ∧ m.2.2 < k := by
    rw [mem_loops]
    constructor
    · rintro ⟨nr, nc, hnr, hnc, rfl⟩
      exact ⟨rfl, hnr, hnc⟩
    · rintro ⟨heq, hnr, hnc⟩
      exact ⟨m.2.1, m.2.2, hnr, hnc, Prod.ext heq.symm rfl⟩
  have hnames := h.names_le
  obtain ⟨out, hout, hcells⟩ : ∃ out, transfer retval (List.map _ _) _ = .ok out ∧
      Holds k t.names.length (fun c => t.cell (c.2, c.1)) out :=
    h.cells.transfer (holds_replicate k t.names.length none) (fun m hm => by
      obtain ⟨heq, hrow, hcol⟩ := hmem.mp hm
      rw [heq]
      simp only
      omega)
    (fun m hm => by rw [(hmem.mp hm).1])
    (fun c hcol hrow hc => absurd rfl (hc ((c.2, c.1), c) (hmem.mpr ⟨rfl, hcol, hrow⟩)))
    (fun m hm m' hm' heq => by rw [(hmem.mp hm).1, (hmem.mp hm').1, heq])
  rw [hmoves, ← hcells.eq_ofCells]
  exact hout

private theorem Represents.records_le (h : Represents t cap nret what retval) :
    records t.k t.blankSkip ≤ nret := by
  have hlt := h.k_lt
  unfold records
  split <;> omega

private theorem Represents.take_what (h : Represents t cap nret what retval) :
    what.take t.names.length = t.names := by
  have hlength := h.what_length
  have hnames := h.names_le
  apply List.ext_getElem?
  intro j
  by_cases hj : j < t.names.length
  · rw [List.getElem?_take_of_lt hj, h.what_get j hj]
  · rw [List.getElem?_eq_none (by rw [List.length_take]; omega), List.getElem?_eq_none (by omega)]

/-! ### The doubling matrix and the table -/

def State.of (t : Table) (cap nret : ℕ) (what : List String) (retval : List (Option String)) :
    State := ⟨t.names.length, cap, nret, t.k, t.blankSkip, what, retval⟩

/-- After a line the state is again that of the table. -/
def Follows (t : Table) (r : Except Stop State) : Prop :=
  ∃ cap nret what retval, r = .ok (State.of t cap nret what retval) ∧
    Represents t cap nret what retval

private theorem follows_blank (h : Represents t cap nret what retval) :
    Follows (t.line .blank) ((State.of t cap nret what retval).line .blank) := by
  cases hskip : t.blankSkip with
  | true =>
    refine ⟨cap, nret, what, retval, ?_, ?_⟩
    · simp only [State.line, State.blank, Table.line, State.of, hskip, if_true]
    · simpa only [Table.line, hskip, if_true] using h
  | false =>
    have hline : t.line .blank = { t with k := t.k + 1, blankSkip := true } := by
      simp only [Table.line, hskip, Bool.false_eq_true, if_false]
    rw [hline]
    by_cases hfull : t.k + 1 > nret - 1
    · obtain ⟨retval2, hretval2, h2⟩ := h.transferVector
      refine ⟨cap, nret * 2, what, retval2, ?_, h2.next (by have := h.k_lt; omega)⟩
      simp only [State.line, State.blank, State.of, hskip, Bool.false_eq_true, if_false,
        if_pos hfull, hretval2]
      rfl
    · refine ⟨cap, nret, what, retval, ?_, h.next (by omega)⟩
      simp only [State.line, State.blank, State.of, hskip, Bool.false_eq_true, if_false,
        if_neg hfull]

private theorem follows_set (h : Represents t cap nret what retval) {m : ℕ}
    (hm : m < t.names.length) (text : Option String → String) :
    Follows (t.line (.set m text)) ((State.of t cap nret what retval).line (.set m text)) := by
  have hload := h.cells.load (c := (t.k, m)) h.k_lt (Nat.lt_of_lt_of_le hm h.names_le)
  rw [place, Nat.mul_comm] at hload
  obtain ⟨out, hout, h'⟩ := h.put hm (text (t.cell (t.k, m)))
  refine ⟨cap, nret, what, out, ?_, h'⟩
  simp only [State.line, State.set, State.of, hload, bind, Except.bind, hout]
  rfl

private theorem grow_spec (h : Represents t cap nret what retval) (hfull : t.names.length = cap) :
    ∃ cap' what' retval', (State.of t cap nret what retval).grow =
        .ok (State.of t cap' nret what' retval') ∧
      Represents t cap' nret what' retval' ∧ t.names.length < cap' := by
  generalize hcap' : doubledCap cap = cap'
  have hlt : t.names.length < cap' := by
    rw [← hcap', doubledCap]
    split <;> omega
  obtain ⟨what2, hwhat2, hlength, hget⟩ := names_kept h.what_get (fun nr => nr)
    (fun i hi => by rw [h.what_length]; omega) (Nat.le_of_lt hlt) (Nat.le_refl _) fun _ _ => rfl
  obtain ⟨retval2, hretval2, hcells⟩ := h.restride cap' (t.k + 1) (Nat.le_of_lt hlt)
    h.k_lt (Nat.lt_succ_self _)
  refine ⟨cap', what2, retval2, ?_, ⟨h.k_lt, Nat.le_of_lt hlt, hlength, hget, hcells, h.outside⟩, hlt⟩
  simp only [State.grow, State.of, hcap', hwhat2, hretval2, bind, Except.bind]

private theorem makeRoom_spec (h : Represents t cap nret what retval) :
    ∃ cap' what' retval', (State.of t cap nret what retval).makeRoom =
        .ok (State.of t cap' nret what' retval') ∧
      Represents t cap' nret what' retval' ∧ t.names.length < cap' := by
  by_cases hfull : t.names.length = cap
  · rw [State.makeRoom, State.of, if_pos hfull]
    exact grow_spec h hfull
  · rw [State.makeRoom, State.of, if_neg hfull]
    exact ⟨cap, what, retval, rfl, h, Nat.lt_of_le_of_ne h.names_le hfull⟩

private theorem follows_add (h : Represents t cap nret what retval) (name text : String) :
    Follows (t.line (.add name text)) ((State.of t cap nret what retval).line (.add name text)) := by
  obtain ⟨cap', what', retval', hroom, h', hlt⟩ := makeRoom_spec h
  obtain ⟨what2, out, hname, hstore, h2⟩ := h'.add hlt name text
  refine ⟨cap', nret, what2, out, ?_, h2⟩
  simp only [State.line, State.add, hroom, bind, Except.bind]
  simp only [State.of, hname, Nat.add_sub_cancel, hstore, Table.line, Table.put,
    List.length_append, List.length_singleton]

/-- Every line keeps the doubling matrix that of the table. -/
theorem follows_line (h : Represents t cap nret what retval) {op : Op} {ops : List Op}
    (hop : Performed t.names.length (op :: ops)) :
    Follows (t.line op) ((State.of t cap nret what retval).line op) ∧
      Performed (t.line op).names.length ops := by
  cases op with
  | blank =>
    refine ⟨follows_blank h, ?_⟩
    rw [Table.line]
    split <;> exact hop
  | other =>
    exact ⟨⟨cap, nret, what, retval, rfl, h.k_lt, h.names_le, h.what_length, h.what_get, h.cells,
      h.outside⟩, hop⟩
  | set m text => exact ⟨follows_set h hop.1 text, hop.2⟩
  | add name text =>
    refine ⟨follows_add h name text, ?_⟩
    simpa [Table.line, Performed] using hop

private theorem finish_eq (h : Represents t cap nret what retval) :
    (State.of t cap nret what retval).finish = .ok t.result := by
  have hk := h.records_le
  simp only [State.finish, State.of, h.transpose hk, bind, Except.bind, h.take_what, Table.result]

theorem readDCF_eq_table (h : Represents t cap nret what retval) {ops : List Op}
    (hops : Performed t.names.length ops) :
    (do (← ops.foldlM State.line (State.of t cap nret what retval)).finish) =
      .ok (ops.foldl Table.line t).result := by
  induction ops generalizing t cap nret what retval with
  | nil => exact finish_eq h
  | cons op ops ih =>
    obtain ⟨⟨cap', nret', what', retval', hline, h'⟩, hops'⟩ := follows_line h hops
    rw [List.foldlM_cons, hline]
    exact ih h' hops'

/-! ### The replaced matrix and the table -/

def OldState.of (t : Table) (nret : ℕ) (retval : List (Option String)) : OldState :=
  ⟨t.names.length, nret, t.k, t.blankSkip, t.names, retval⟩

/-- After a line the replaced state is that of the table, its rows being the fields. -/
def OldFollows (t : Table) (r : Except Stop OldState) : Prop :=
  ∃ nret retval, r = .ok (OldState.of t nret retval) ∧
    Represents t t.names.length nret t.names retval

private theorem oldFollows_blank (h : Represents t t.names.length nret t.names retval) :
    OldFollows (t.line .blank) ((OldState.of t nret retval).line .blank) := by
  cases hskip : t.blankSkip with
  | true =>
    refine ⟨nret, retval, ?_, ?_⟩
    · simp only [OldState.line, OldState.blank, Table.line, OldState.of, hskip, if_true]
    · simpa only [Table.line, hskip, if_true] using h
  | false =>
    have hline : t.line .blank = { t with k := t.k + 1, blankSkip := true } := by
      simp only [Table.line, hskip, Bool.false_eq_true, if_false]
    rw [hline]
    by_cases hfull : t.k + 1 > nret - 1
    · obtain ⟨retval2, hretval2, h2⟩ := h.transferVector
      refine ⟨nret * 2, retval2, ?_, h2.next (by have := h.k_lt; omega)⟩
      simp only [OldState.line, OldState.blank, OldState.of, hskip, Bool.false_eq_true, if_false,
        if_pos hfull, hretval2]
      rfl
    · refine ⟨nret, retval, ?_, h.next (by omega)⟩
      simp only [OldState.line, OldState.blank, OldState.of, hskip, Bool.false_eq_true, if_false,
        if_neg hfull]

private theorem oldFollows_set (h : Represents t t.names.length nret t.names retval) {m : ℕ}
    (hm : m < t.names.length) (text : Option String → String) :
    OldFollows (t.line (.set m text)) ((OldState.of t nret retval).line (.set m text)) := by
  have hload := h.cells.load (c := (t.k, m)) h.k_lt hm
  rw [place, Nat.mul_comm] at hload
  obtain ⟨out, hout, h'⟩ := h.put hm (text (t.cell (t.k, m)))
  refine ⟨nret, out, ?_, h'⟩
  simp only [OldState.line, OldState.set, OldState.of, hload, bind, Except.bind, hout]
  rfl

private theorem oldGrow_spec (h : Represents t t.names.length nret t.names retval) :
    ∃ what2 retval2, (OldState.of t nret retval).grow = .ok (what2, retval2) ∧
      Represents t (t.names.length + 1) nret what2 retval2 := by
  by_cases hpos : t.names.length > 0
  · obtain ⟨what2, hwhat2, hlength, hget⟩ := names_kept h.what_get (fun i => i % t.names.length)
      (fun i _ => Nat.mod_lt i hpos) (Nat.le_refl _) (Nat.le_succ _) fun j hj => Nat.mod_eq_of_lt hj
    obtain ⟨retval2, hretval2, hcells⟩ :=
      h.restride (t.names.length + 1) nret (Nat.le_succ _) (Nat.le_refl _) h.k_lt
    refine ⟨what2, retval2, ?_, h.k_lt, Nat.le_succ _, hlength, hget, hcells, h.outside⟩
    have hcopy : copyVector (allocStrings (t.names.length + 1)) t.names = .ok what2 := by
      rw [copyVector, allocStrings, List.length_replicate, ← allocStrings]
      exact hwhat2
    simp only [OldState.grow, OldState.of, if_pos hpos, hcopy, hretval2, bind, Except.bind]
  · have hnone : t.cell = fun _ => none := funext fun c => h.outside c (.inr (by omega))
    refine ⟨allocStrings (t.names.length + 1), allocMatrixNA (t.names.length + 1) nret, if_neg hpos,
      h.k_lt, Nat.le_succ _, List.length_replicate, fun j hj => absurd hj (by omega), ?_, h.outside⟩
    rw [hnone]
    exact holds_replicate _ _ none

private theorem oldFollows_add (h : Represents t t.names.length nret t.names retval)
    (name text : String) :
    OldFollows (t.line (.add name text)) ((OldState.of t nret retval).line (.add name text)) := by
  obtain ⟨what2, retval2, hgrow, h2⟩ := oldGrow_spec h
  obtain ⟨what', out, hname, hstore, h'⟩ := h2.add (Nat.lt_succ_self _) name text
  have hcap : (t.line (.add name text)).names.length = t.names.length + 1 := by
    simp only [Table.line, List.length_append, List.length_singleton]
  have hwhat : what' = t.names ++ [name] := by
    have htake := h'.take_what
    rw [List.take_of_length_le (by rw [h'.what_length, hcap])] at htake
    exact htake
  subst hwhat
  refine ⟨nret, out, ?_, by rw [hcap]; exact h'⟩
  simp only [OldState.line, OldState.add, hgrow, bind, Except.bind]
  simp only [OldState.of, hname, Nat.add_sub_cancel, hstore, Table.line, Table.put,
    List.length_append, List.length_singleton]

theorem oldFollows_line (h : Represents t t.names.length nret t.names retval) {op : Op}
    {ops : List Op} (hop : Performed t.names.length (op :: ops)) :
    OldFollows (t.line op) ((OldState.of t nret retval).line op) := by
  cases op with
  | blank => exact oldFollows_blank h
  | other => exact ⟨nret, retval, rfl, h.k_lt, h.names_le, h.what_length, h.what_get, h.cells, h.outside⟩
  | set m text => exact oldFollows_set h hop.1 text
  | add name text => exact oldFollows_add h name text

private theorem oldFinish_eq (h : Represents t t.names.length nret t.names retval) :
    (OldState.of t nret retval).finish = .ok t.result := by
  have htranspose := h.transpose h.records_le
  simp only [Nat.add_comm _ (_ * t.names.length)] at htranspose
  simp only [OldState.finish, OldState.of, htranspose, bind, Except.bind, Table.result]

theorem oldReadDCF_eq_table (h : Represents t t.names.length nret t.names retval) {ops : List Op}
    (hops : Performed t.names.length ops) :
    (do (← ops.foldlM OldState.line (OldState.of t nret retval)).finish) =
      .ok (ops.foldl Table.line t).result := by
  induction ops generalizing t nret retval with
  | nil => exact oldFinish_eq h
  | cons op ops ih =>
    obtain ⟨nret', retval', hline, h'⟩ := oldFollows_line h hops
    have hperformed := (follows_line h hops).2
    rw [List.foldlM_cons, hline]
    exact ih h' hperformed

/-- The two codes give the same names and the same matrix, that of the table: the cell of a
record and a field is what was last stored for them, and NA if nothing was. Neither uses an
index outside its matrix. -/
theorem readDCF_eq_oldReadDCF (what : List String) (ops : List Op)
    (h : Performed what.length ops) :
    readDCF what ops = .ok (ops.foldl Table.line (.start what)).result ∧
      oldReadDCF what ops = .ok (ops.foldl Table.line (.start what)).result :=
  ⟨readDCF_eq_table (represents_start what) h, oldReadDCF_eq_table (represents_start what) h⟩

/-- Twenty records of one field, and another with two more, of which one is continued: the room for
records is used up, and twice the room for fields. -/
def outgrown : List Op :=
  (List.replicate 20 [.set 0 fun _ => "1", .blank]).flatten ++
    [.add "B" "2", .add "C" "3", .set 1 fun x => x.getD "NA" ++ "\n4"]

theorem readDCF_outgrown :
    readDCF ["A"] outgrown = .ok (["A", "B", "C"], 21,
      List.replicate 20 (some "1") ++ [none] ++ List.replicate 20 none ++ [some "2\n4"] ++
        List.replicate 20 none ++ [some "3"]) := by
  have hread := (readDCF_eq_oldReadDCF ["A"] outgrown (by simp [outgrown, Performed])).1
  rw [hread]
  decide +kernel

end ROssFuzz.DcfMatrix
