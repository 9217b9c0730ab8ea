import ROssFuzz.CheckedOperations
import Mathlib.Data.List.Nodup

/-!
# The forwarding tables of a load

`DataLoad` restores a saved workspace in two passes over its records. Its first pass fills
the tables: a symbol's object goes to the node the file names for it, and every record is
given an object of its own, allocated from the record, at the node the file names. The
second pass reads the records again and restores each into the object at its node.

The file gives any `int`s. What `install` and the allocation do is a parameter, `none` where
they raise an error; `nil` is `R_NilValue`.
-/

namespace ROssFuzz.NodeTables
open CheckedOperations

variable {Obj Name Rec : Type}

structure NodeInfo (Obj : Type) where
  nTotal : ℤ
  oldOffset : List ℤ
  newAddress : List Obj

structure SymbolEntry (Name : Type) where
  node : CInt
  offset : CInt
  name : Name

structure SaveEntry where
  node : CInt
  offset : CInt

/-- A record: its node, and what it is allocated from. -/
structure Record (Rec : Type) where
  idx : CInt
  body : Rec

/-- A file, as far as the first pass reads it. -/
structure File (Name Rec : Type) where
  nSymbol : CInt
  nSave : CInt
  nvSize : CInt
  symbols : List (SymbolEntry Name)
  saves : List SaveEntry
  records : List (Record Rec)

/-- `for (i = 0; i < n; i++)` around a body that reads an entry of the file each time. -/
def forEach {ε : Type} (body : NodeInfo Obj → ε → Except Stop (NodeInfo Obj)) :
    ℕ → List ε → NodeInfo Obj → Except Stop (NodeInfo Obj)
  | 0, _, node => .ok node
  -- the file ends
  | _ + 1, [], _ => .error .error
  | n + 1, e :: es, node => do forEach body n es (← body node e)

/-- The object, or the error that was raised instead. -/
def orError (x : Option Obj) : Except Stop Obj :=
  match x with
  | some x => .ok x
  | none => .error .error

/-- The body of the loop over the symbols. -/
def readSymbol (install : Name → Option Obj) (node : NodeInfo Obj) (e : SymbolEntry Name) :
    Except Stop (NodeInfo Obj) :=
  if e.node.val < 0 ∨ e.node.val ≥ node.nTotal then .error .error
  else do
    let oldOffset ← storeAt node.oldOffset e.node e.offset
    let x ← orError (install e.name)
    let newAddress ← storeAt node.newAddress e.node x
    .ok { node with oldOffset := oldOffset, newAddress := newAddress }

/-- The body of the loop over the objects to save. -/
def readSave (node : NodeInfo Obj) (e : SaveEntry) : Except Stop (NodeInfo Obj) :=
  if e.node.val < 0 ∨ e.node.val ≥ node.nTotal then .error .error
  else do
    let oldOffset ← storeAt node.oldOffset e.node e.offset
    .ok { node with oldOffset := oldOffset }

/-- `RemakeNextSEXP`, whose `idx` is unsigned. -/
def remakeNextSEXP [DecidableEq Obj] (nil : Obj) (allocate : Rec → Option Obj)
    (node : NodeInfo Obj) (r : Record Rec) : Except Stop (NodeInfo Obj) :=
  let idx := asUnsigned r.idx
  if idx ≥ asUnsigned node.nTotal then .error .error
  else do
    let old ← load node.newAddress idx
    if old ≠ nil then .error .error
    else do
      let s ← orError (allocate r.body)
      let newAddress ← store node.newAddress idx s
      .ok { node with newAddress := newAddress }

/-- The first pass of `DataLoad`; `offsets` is what the table of offsets holds when it is
allocated. -/
def dataLoad [DecidableEq Obj] (nil : Obj) (install : Name → Option Obj)
    (allocate : Rec → Option Obj) (offsets : ℕ → ℤ) (file : File Name Rec) :
    Except Stop (NodeInfo Obj) :=
  if file.nSymbol.val < 0 ∨ file.nSave.val < 0 ∨ file.nvSize.val < 0 ∨
      file.nSymbol.val > intMax - file.nSave then .error .error
  else do
    let nTotal ← asInt (file.nSymbol + file.nSave)
    let node := ⟨nTotal, (List.range nTotal.toNat).map offsets, List.replicate nTotal.toNat nil⟩
    let node ← forEach (readSymbol install) file.nSymbol.val.toNat file.symbols node
    let node ← forEach readSave file.nSave.val.toNat file.saves node
    forEach (remakeNextSEXP nil allocate) file.nSave.val.toNat file.records node

/-! ### The tables while they are filled -/

/-- The tables have the declared size; a symbol's node is taken; every record so far has a
node of its own, which holds what was allocated from it. -/
structure Filled (n : ℤ) (nil : Obj) (allocate : Rec → Option Obj)
    (symbols : List (SymbolEntry Name)) (records : List (Record Rec)) (node : NodeInfo Obj) :
    Prop where
  nTotal : node.nTotal = n
  nTotal_le : node.nTotal ≤ intMax
  nonneg : 0 ≤ node.nTotal
  offsets : node.oldOffset.length = node.nTotal
  addresses : node.newAddress.length = node.nTotal
  taken : ∀ e ∈ symbols, (0 ≤ e.node.val ∧ e.node.val < node.nTotal) ∧
    ∃ x, node.newAddress[e.node.val.toNat]? = some x ∧ x ≠ nil
  owned : ∀ r ∈ records, asUnsigned r.idx < node.nTotal ∧
    ∃ s, allocate r.body = some s ∧ node.newAddress[asUnsigned r.idx]? = some s
  distinct : (records.map fun r => asUnsigned r.idx).Nodup
  apart : ∀ r ∈ records, ∀ e ∈ symbols, e.node.val ≠ asUnsigned r.idx

/-- A loop whose body keeps an invariant of what has been read so far makes no fault, and
has read as many entries as it was to. -/
theorem safe_forEach {ε : Type} {body : NodeInfo Obj → ε → Except Stop (NodeInfo Obj)}
    {I : List ε → NodeInfo Obj → Prop}
    (hbody : ∀ done e node, I done node → Safe (body node e) (I (done ++ [e])))
    {n : ℕ} {es done : List ε} {node : NodeInfo Obj} (h : I done node) :
    Safe (forEach body n es node) fun node => n ≤ es.length ∧ I (done ++ es.take n) node := by
  induction n generalizing es done node with
  | zero => exact .ok ⟨Nat.zero_le _, by simpa using h⟩
  | succ n ih =>
    cases es with
    | nil => exact .error
    | cons e es =>
      apply (hbody done e node h).bind
      intro node hnode
      apply (ih hnode).mono
      rintro node ⟨hn, hnode⟩
      exact ⟨Nat.succ_le_succ hn, by simpa using hnode⟩

theorem safe_orError (x : Option Obj) : Safe (orError x) fun y => x = some y := by
  cases x with
  | none => exact .error
  | some x => exact .ok rfl

variable {n : ℤ} {nil : Obj} {allocate : Rec → Option Obj}

private theorem safe_readSymbol {install : Name → Option Obj}
    (hinstall : ∀ name x, install name = some x → x ≠ nil) {node : NodeInfo Obj}
    {done : List (SymbolEntry Name)} (e : SymbolEntry Name)
    (h : Filled n nil allocate done [] node) :
    Safe (readSymbol install node e) (Filled n nil allocate (done ++ [e]) []) := by
  obtain ⟨hn, hmax, hnonneg, hoffsets, haddresses, htaken, -, -, -⟩ := h
  apply Safe.guard
  intro hin
  have h₀ : 0 ≤ e.node.val := by omega
  have hlt : e.node.val < node.nTotal := by omega
  apply (safe_storeAt h₀ (by omega) (P := fun v => v.length = node.oldOffset.length)
    (List.length_set ..)).bind
  intro offsets hlength
  apply (safe_orError _).bind
  intro x hx
  have hstored : (node.newAddress.set e.node.val.toNat x)[e.node.val.toNat]? = some x :=
    List.getElem?_set_self (by omega)
  apply (safe_storeAt h₀ (by omega) (P := (· = node.newAddress.set e.node.val.toNat x)) rfl).bind
  rintro _ rfl
  refine .ok ⟨hn, hmax, hnonneg, by rw [hlength, hoffsets], by rw [List.length_set, haddresses], ?_,
    by simp, by simp, by simp⟩
  intro e' he'
  by_cases hsame : e'.node.val = e.node.val
  · rw [hsame]
    exact ⟨⟨h₀, hlt⟩, x, hstored, hinstall _ x hx⟩
  · rcases List.mem_append.mp he' with he' | he'
    · obtain ⟨⟨h₀', hlt'⟩, y, hy, hynil⟩ := htaken e' he'
      exact ⟨⟨h₀', hlt'⟩, y, by rw [List.getElem?_set_ne (by omega), hy], hynil⟩
    · exact absurd (by rw [List.mem_singleton.mp he']) hsame

private theorem safe_readSave {node : NodeInfo Obj} {symbols : List (SymbolEntry Name)}
    (e : SaveEntry) (h : Filled n nil allocate symbols [] node) :
    Safe (readSave node e) fun node => Filled n nil allocate symbols [] node ∧
      0 ≤ e.node.val ∧ e.node.val < n := by
  obtain ⟨hn, hmax, hnonneg, hoffsets, haddresses, htaken, howned, hdistinct, hapart⟩ := h
  apply Safe.guard
  intro hin
  apply (safe_storeAt (by omega) (by omega) (P := fun v => v.length = node.oldOffset.length)
    (List.length_set ..)).bind
  intro offsets hlength
  exact .ok ⟨⟨hn, hmax, hnonneg, by rw [hlength, hoffsets], haddresses, htaken, howned, hdistinct,
    hapart⟩, by omega, by omega⟩

theorem asUnsigned_of_mem {x : ℤ} (h₀ : 0 ≤ x) (h : x ≤ intMax) : (asUnsigned x : ℤ) = x := by
  simp only [intMax] at h
  rw [asUnsigned, Int.emod_eq_of_lt h₀ (by omega), Int.toNat_of_nonneg h₀]

private theorem safe_remakeNextSEXP [DecidableEq Obj]
    (hallocate : ∀ body s, allocate body = some s → s ≠ nil) {node : NodeInfo Obj}
    {symbols : List (SymbolEntry Name)} {done : List (Record Rec)} (r : Record Rec)
    (h : Filled n nil allocate symbols done node) :
    Safe (remakeNextSEXP nil allocate node r) (Filled n nil allocate symbols (done ++ [r])) := by
  obtain ⟨hn, hmax, hnonneg, hoffsets, haddresses, htaken, howned, hdistinct, hapart⟩ := h
  have htotal := asUnsigned_of_mem hnonneg hmax
  apply Safe.guard
  intro hin
  have hlt : (asUnsigned r.idx : ℤ) < node.nTotal := by omega
  apply (safe_load (P := fun old => node.newAddress[asUnsigned r.idx]? = some old) (by omega)
    (List.getElem?_eq_getElem _)).bind
  intro old hold
  apply Safe.guard
  -- the node is still free
  rintro hfree
  obtain rfl : old = nil := not_not.mp hfree
  apply (safe_orError _).bind
  intro s hs
  apply (safe_store (by omega) (P := (· = node.newAddress.set (asUnsigned r.idx) s)) rfl).bind
  rintro _ rfl
  have hother : ∀ r' ∈ done, asUnsigned r'.idx ≠ asUnsigned r.idx := by
    intro r' hr' hsame
    obtain ⟨-, s', hs', hheld⟩ := howned r' hr'
    rw [hsame, hold] at hheld
    exact hallocate _ s' hs' (Option.some.inj hheld).symm
  have hsymbol : ∀ e ∈ symbols, e.node.val ≠ asUnsigned r.idx := by
    intro e he hsame
    obtain ⟨-, x, hx, hxnil⟩ := htaken e he
    rw [hsame, Int.toNat_natCast, hold] at hx
    exact hxnil (Option.some.inj hx).symm
  refine .ok ⟨hn, hmax, hnonneg, hoffsets, by rw [List.length_set, haddresses], ?_, ?_, ?_, ?_⟩
  · intro e he
    have hne := hsymbol e he
    obtain ⟨hrange, x, hx, hxnil⟩ := htaken e he
    exact ⟨hrange, x, by rw [List.getElem?_set_ne (by omega), hx], hxnil⟩
  · intro r' hr'
    rcases List.mem_append.mp hr' with hr' | hr'
    · obtain ⟨hrange, s', hs', hheld⟩ := howned r' hr'
      exact ⟨hrange, s', hs', by rw [List.getElem?_set_ne (hother r' hr').symm, hheld]⟩
    · obtain rfl := List.mem_singleton.mp hr'
      exact ⟨hlt, s, hs, List.getElem?_set_self (by omega)⟩
  · rw [List.map_append, List.nodup_append]
    refine ⟨hdistinct, by simp, ?_⟩
    intro i hi j hj
    obtain ⟨r', hr', rfl⟩ := List.mem_map.mp hi
    obtain rfl : j = asUnsigned r.idx := by simpa using hj
    exact hother r' hr'
  · intro r' hr'
    rcases List.mem_append.mp hr' with hr' | hr'
    · exact hapart r' hr'
    · obtain rfl := List.mem_singleton.mp hr'
      exact hsymbol

/-- An index that is below a table's size when taken as unsigned is not negative. -/
private theorem asUnsigned_lt {x n : ℤ} (hint : intMin ≤ x ∧ x ≤ intMax) (hn : n ≤ intMax)
    (h : asUnsigned x < n) : 0 ≤ x ∧ (asUnsigned x : ℤ) = x := by
  simp only [asUnsigned, intMin, intMax] at *
  omega

/-- The entries that the loops read. -/
def File.symbolsRead (file : File Name Rec) : List (SymbolEntry Name) :=
  file.symbols.take file.nSymbol.val.toNat

def File.savesRead (file : File Name Rec) : List SaveEntry :=
  file.saves.take file.nSave.val.toNat

def File.recordsRead (file : File Name Rec) : List (Record Rec) :=
  file.records.take file.nSave.val.toNat

/-- Every index is one of a node, the records have nodes of their own, apart from the
symbols', and at each is what was allocated from its record. -/
structure OwnNodes (allocate : Rec → Option Obj) (file : File Name Rec) (node : NodeInfo Obj) :
    Prop where
  nTotal : node.nTotal = file.nSymbol + file.nSave
  symbols : file.symbolsRead.length = file.nSymbol.val ∧
    ∀ e ∈ file.symbolsRead, 0 ≤ e.node.val ∧ e.node.val < node.nTotal
  saves : file.savesRead.length = file.nSave.val ∧
    ∀ e ∈ file.savesRead, 0 ≤ e.node.val ∧ e.node.val < node.nTotal
  records : file.recordsRead.length = file.nSave.val ∧
    ∀ r ∈ file.recordsRead, 0 ≤ r.idx.val ∧ r.idx.val < node.nTotal
  distinct : (file.recordsRead.map fun r => r.idx.val).Nodup
  apart : ∀ r ∈ file.recordsRead, ∀ e ∈ file.symbolsRead, e.node.val ≠ r.idx.val
  /-- the second pass reads the same index -/
  own : ∀ r ∈ file.recordsRead,
    ∃ s, allocate r.body = some s ∧ loadAt node.newAddress r.idx = .ok s

private theorem filled_start (nil : Obj) (allocate : Rec → Option Obj) (hnonneg : 0 ≤ n)
    (hmax : n ≤ intMax) (offsets : ℕ → ℤ) :
    Filled n nil allocate ([] : List (SymbolEntry Name)) []
      ⟨n, (List.range n.toNat).map offsets, List.replicate n.toNat nil⟩ := by
  refine ⟨rfl, hmax, hnonneg, ?_, ?_, by simp, by simp, by simp, by simp⟩
  · rw [List.length_map, List.length_range, Int.toNat_of_nonneg hnonneg]
  · rw [List.length_replicate, Int.toNat_of_nonneg hnonneg]

/-- The loop over the objects to save leaves what is filled, and their indices are nodes. -/
private theorem safe_savesRead {file : File Name Rec} {node : NodeInfo Obj}
    (h : Filled n nil allocate file.symbolsRead [] node) :
    Safe (forEach readSave file.nSave.val.toNat file.saves node) fun node =>
      file.nSave.val.toNat ≤ file.saves.length ∧
        Filled n nil allocate file.symbolsRead [] node ∧
        ∀ e ∈ file.savesRead, 0 ≤ e.node.val ∧ e.node.val < n := by
  have hsave : ∀ (done : List SaveEntry) e node, (Filled n nil allocate file.symbolsRead [] node ∧
      ∀ e ∈ done, 0 ≤ e.node.val ∧ e.node.val < n) → Safe (readSave node e) fun node =>
        Filled n nil allocate file.symbolsRead [] node ∧
          ∀ e' ∈ done ++ [e], 0 ≤ e'.node.val ∧ e'.node.val < n := by
    rintro done e node ⟨hnode, hdone⟩
    apply (safe_readSave e hnode).mono
    rintro node ⟨hnode, he⟩
    refine ⟨hnode, fun e' he' => ?_⟩
    rcases List.mem_append.mp he' with he' | he'
    · exact hdone e' he'
    · exact List.mem_singleton.mp he' ▸ he
  exact safe_forEach hsave ⟨h, List.forall_mem_nil _⟩

/-- When as many entries have been read as there are to be, the tables are as they should. -/
private theorem Filled.ownNodes {file : File Name Rec} {node : NodeInfo Obj}
    (h : Filled n nil allocate file.symbolsRead file.recordsRead node)
    (hn : n = file.nSymbol.val + file.nSave.val) (hsymbols : 0 ≤ file.nSymbol.val)
    (hsaves : 0 ≤ file.nSave.val) (hsymbolsRead : file.nSymbol.val.toNat ≤ file.symbols.length)
    (hsavesRead : file.nSave.val.toNat ≤ file.saves.length)
    (hrecordsRead : file.nSave.val.toNat ≤ file.records.length)
    (hsaved : ∀ e ∈ file.savesRead, 0 ≤ e.node.val ∧ e.node.val < n) :
    OwnNodes allocate file node := by
  obtain ⟨htotal, hmax, hnonneg, -, -, htaken, howned, hdistinct, hapart⟩ := h
  have hlength {ε : Type} {m : CInt} {es : List ε} (h₀ : 0 ≤ m.val) (h : m.val.toNat ≤ es.length) :
      ((es.take m.val.toNat).length : ℤ) = m.val := by
    rw [List.length_take]
    omega
  have hidx : ∀ r ∈ file.recordsRead, 0 ≤ r.idx.val ∧ (asUnsigned r.idx : ℤ) = r.idx.val :=
    fun r hr => asUnsigned_lt r.idx.2 hmax (howned r hr).1
  refine ⟨htotal.trans hn, ⟨hlength hsymbols hsymbolsRead, fun e he => (htaken e he).1⟩,
    ⟨hlength hsaves hsavesRead, by rw [htotal]; exact hsaved⟩,
    ⟨hlength hsaves hrecordsRead, fun r hr => ?_⟩, ?_, fun r hr e he => ?_, fun r hr => ?_⟩
  · obtain ⟨h₀, heq⟩ := hidx r hr
    have hlt := (howned r hr).1
    omega
  · apply List.Nodup.of_map asUnsigned
    rw [List.map_map]
    exact hdistinct
  · rw [← (hidx r hr).2]
    exact hapart r hr e he
  · obtain ⟨-, s, hs, hheld⟩ := howned r hr
    refine ⟨s, hs, ?_⟩
    rw [← (hidx r hr).2, loadAt_natCast]
    exact load_eq_ok_iff.mpr hheld

/-- The first pass makes no access outside its tables and, unless it raises an error, gives
each record its own object. -/
theorem dataLoad_first_pass [DecidableEq Obj] (nil : Obj) (install : Name → Option Obj)
    (allocate : Rec → Option Obj) (hinstall : ∀ name x, install name = some x → x ≠ nil)
    (hallocate : ∀ body s, allocate body = some s → s ≠ nil) (offsets : ℕ → ℤ)
    (file : File Name Rec) :
    dataLoad nil install allocate offsets file ≠ .error .fault ∧
    ∀ node, dataLoad nil install allocate offsets file = .ok node →
      OwnNodes allocate file node := by
  change Safe (dataLoad nil install allocate offsets file) (OwnNodes allocate file)
  apply Safe.guard
  intro hcounts
  have hsymbols : 0 ≤ file.nSymbol.val := by omega
  have hsaves : 0 ≤ file.nSave.val := by omega
  have htotal : asInt (file.nSymbol + file.nSave) = .ok (file.nSymbol.val + file.nSave.val) := by
    have hmin : intMin ≤ 0 := by decide
    apply asInt_of_mem <;> omega
  generalize hn : file.nSymbol.val + file.nSave.val = n at htotal
  rw [htotal]
  have hnonneg : 0 ≤ n := by omega
  have hmax : n ≤ intMax := by omega
  apply (safe_forEach (I := fun done => Filled n nil allocate done [])
    (fun done e node h => safe_readSymbol hinstall e h)
    (filled_start nil allocate hnonneg hmax offsets)).bind
  rintro node ⟨hsymbolsRead, hnode⟩
  apply (safe_savesRead hnode).bind
  rintro node ⟨hsavesRead, hnode, hsaved⟩
  apply (safe_forEach (I := fun done => Filled n nil allocate file.symbolsRead done)
    (fun done r node h => safe_remakeNextSEXP hallocate r h) hnode).mono
  rintro node ⟨hrecordsRead, hnode⟩
  exact hnode.ownNodes hn.symm hsymbols hsaves hsymbolsRead hsavesRead hrecordsRead hsaved

/-- A symbol at node 1 and records at nodes 2 and 0. -/
def twoRecords : File ℕ ℕ where
  nSymbol := ⟨1, by decide⟩
  nSave := ⟨2, by decide⟩
  nvSize := ⟨0, by decide⟩
  symbols := [⟨⟨1, by decide⟩, ⟨8, by decide⟩, 6⟩]
  saves := [⟨⟨0, by decide⟩, ⟨16, by decide⟩⟩, ⟨⟨2, by decide⟩, ⟨24, by decide⟩⟩]
  records := [⟨⟨2, by decide⟩, 40⟩, ⟨⟨0, by decide⟩, 41⟩]

theorem dataLoad_first_pass_two : OwnNodes (fun body => some (body + 100)) twoRecords
    ⟨3, [16, 8, 24], [141, 7, 140]⟩ :=
  (dataLoad_first_pass 0 (fun name => some (name + 1)) (fun body => some (body + 100))
    (by simp) (by simp) (fun _ => 0) twoRecords).2 _ rfl

end ROssFuzz.NodeTables
