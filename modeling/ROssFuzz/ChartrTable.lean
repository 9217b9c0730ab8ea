import ROssFuzz.KeyedLists
import Mathlib.Data.List.Induction

/-!
# The translation table of chartr

`do_chartr` fills a table with an entry for each character of the specification, sorts it
by character and keeps the last entry of each. It used to do so with two macros, an
insertion sort and a compaction that shifts the tail; now it calls `qsort`, which is not
stable, and compacts in one pass.
-/

namespace ROssFuzz.ChartrTable
open KeyedLists

/-! ### The removed macros -/

section Removed
variable {α : Type} (comp : α → α → ℤ)

/-- The inner loop of `ISORT` from `_j` on. -/
def isortInner : ℕ → List α → Option (List α)
  | 0, base => some base
  | j + 1, base => do
      let a ← base[j]?
      let b ← base[j + 1]?
      if comp a b > 0 then isortInner j ((base.set j b).set (j + 1) a) else some base

/-- The outer loop, `k` rounds from `_i` on. -/
def isortOuter : ℕ → ℕ → List α → Option (List α)
  | 0, _, base => some base
  | k + 1, i, base => do
      let base ← isortInner comp i base
      isortOuter k (i + 1) base

/-- `ISORT`. -/
def isort (base : List α) : Option (List α) := isortOuter comp (base.length - 1) 1 base

/-- The inner loop of `COMPRESS`, `k` rounds from `_j` on. -/
def shiftTail : ℕ → ℕ → List α → Option (List α)
  | 0, _, base => some base
  | k + 1, j, base => do
      let b ← base[j + 1]?
      shiftTail k (j + 1) (base.set j b)

/-- The outer loop. Every round goes on by one or has one entry fewer left, so `fuel` at the
number of entries is enough. -/
def compressLoop : ℕ → ℕ → List α → ℕ → Option (List α × ℕ)
  | 0, i, base, num => if i + 1 < num then none else some (base, num)
  | fuel + 1, i, base, num =>
      if i + 1 < num then do
        let a ← base[i]?
        let b ← base[i + 1]?
        if comp a b = 0 then do
          -- `_i--` here and `_i++` of the loop: the same index again
          let base ← shiftTail (num - 1 - i) i base
          compressLoop fuel i base (num - 1)
        else compressLoop fuel (i + 1) base num
      else some (base, num)

/-- `COMPRESS`, and the entries it leaves. -/
def compress (base : List α) : Option (List α) := do
  let r ← compressLoop comp base.length 0 base base.length
  some (r.1.take r.2)

end Removed

/-- `xtable_t` as it was. The characters are code points: the specification is valid UTF-8. -/
structure OldXtable where
  cOld : ℤ
  cNew : ℤ
  range : 0 ≤ cOld ∧ cOld ≤ 0x10FFFF
  deriving DecidableEq

/-- `xtable_comp` as it was, a difference of two `wchar_t`. -/
def xtableCompOld (a b : OldXtable) : ℤ := (a.cOld - b.cOld).bmod 0x100000000

/-- What the table was. -/
def tableOld (entries : List OldXtable) : Option (List OldXtable) := do
  let xtable ← isort xtableCompOld entries
  compress xtableCompOld xtable

/-! ### The table now -/

structure Xtable extends OldXtable where
  idx : ℕ
  deriving DecidableEq

def xtableComp (x y : Xtable) : ℤ :=
  if x.cOld ≠ y.cOld then (if x.cOld < y.cOld then -1 else 1)
  else if x.idx < y.idx then -1 else if x.idx > y.idx then 1 else 0

/-- The entries with their positions, as `do_chartr` fills them in. -/
def fill (entries : List OldXtable) : List Xtable :=
  entries.zipIdx.map fun e => { e.1 with idx := e.2 }

/-- The loop after `qsort`, `k` rounds from `i` on. -/
def dedupLoop (cnt : ℕ) : ℕ → ℕ → ℕ → List Xtable → Option (List Xtable × ℕ)
  | 0, _, j, xtable => some (xtable, j)
  | k + 1, i, j, xtable => do
      let x ← xtable[i]?
      let last ← if i + 1 = cnt then some true else do
        let y ← xtable[i + 1]?
        some (decide (x.cOld ≠ y.cOld))
      if last then dedupLoop cnt k (i + 1) (j + 1) (xtable.set j x)
      else dedupLoop cnt k (i + 1) j xtable

/-- The table that is left of what `qsort` returned. -/
def dedup (xtable : List Xtable) : Option (List Xtable) := do
  let r ← dedupLoop xtable.length xtable.length 0 0 xtable
  some (r.1.take r.2)

/-! ### The macros sort and compact -/

section Removed
variable {α κ : Type} [LinearOrder κ] {comp : α → α → ℤ} {key : α → κ}

/-- The comparator compares the keys. -/
def Compares (comp : α → α → ℤ) (key : α → κ) : Prop :=
  ∀ a b, (0 < comp a b ↔ key b < key a) ∧ (comp a b = 0 ↔ key a = key b)

/-- The entry goes down past the greater ones of a sorted list. -/
private theorem isortInner_append (hcomp : Compares comp key) {p : List α}
    (hp : p.Pairwise fun a b => key a ≤ key b) (y : α) (rest : List α) :
    isortInner comp p.length (p ++ y :: rest) = some (p.filter (key · ≤ key y) ++
      y :: (p.filter (key y < key ·) ++ rest)) := by
  induction p using List.reverseRecOn generalizing rest with
  | nil => rfl
  | append_singleton p x ih =>
    obtain ⟨hp, -, hx⟩ := List.pairwise_append.mp hp
    have hget : (p ++ [x] ++ y :: rest)[p.length]? = some x := by simp
    have hget' : (p ++ [x] ++ y :: rest)[p.length + 1]? = some y := by simp
    rw [List.length_append, List.length_singleton, isortInner, hget, hget']
    simp only [Option.bind_eq_bind, Option.bind_some]
    by_cases hxy : key y < key x
    · have hset : ((p ++ [x] ++ y :: rest).set p.length y).set (p.length + 1) x =
          p ++ y :: (x :: rest) := by simp
      rw [if_pos ((hcomp x y).1.mpr hxy), hset, ih hp]
      simp [hxy, hxy.not_ge]
    · rw [if_neg fun h => hxy ((hcomp x y).1.mp h)]
      have hle : ∀ a ∈ p ++ [x], key a ≤ key y := by
        intro a ha
        rcases List.mem_append.mp ha with ha | ha
        · exact (hx a ha x (by simp)).trans (not_lt.mp hxy)
        · obtain rfl := List.mem_singleton.mp ha
          exact not_lt.mp hxy
      have hall : (p ++ [x]).filter (key · ≤ key y) = p ++ [x] :=
        List.filter_eq_self.mpr fun a ha => decide_eq_true (hle a ha)
      have hnone : (p ++ [x]).filter (key y < key ·) = [] :=
        List.filter_eq_nil_iff.mpr fun a ha => by simpa using hle a ha
      rw [hall, hnone, List.nil_append]

/-- One round more is sorted. -/
private theorem stableSort_insert {p : List α} (hp : p.Pairwise fun a b => key a ≤ key b) (y : α) :
    StableSort key (p ++ [y]) (p.filter (key · ≤ key y) ++ y :: p.filter (key y < key ·)) where
  sorted := by
    refine List.pairwise_append.mpr ⟨hp.filter _, List.pairwise_cons.mpr ⟨?_, hp.filter _⟩, ?_⟩
    · intro a ha
      exact (of_decide_eq_true (List.mem_filter.mp ha).2).le
    · intro a ha b hb
      have hay : key a ≤ key y := of_decide_eq_true (List.mem_filter.mp ha).2
      rcases List.mem_cons.mp hb with rfl | hb
      · exact hay
      · exact hay.trans (of_decide_eq_true (List.mem_filter.mp hb).2).le
  same k := by
    simp only [List.filter_append, List.filter_cons, List.filter_filter, List.filter_nil]
    -- the entries of one key all stand on one side of the new one
    by_cases hk : k ≤ key y
    · have hleft : p.filter (fun a => decide (key a = k) && decide (key a ≤ key y)) =
          p.filter (key · = k) := by
        refine List.filter_congr fun a _ => ?_
        by_cases ha : key a = k <;> simp [ha, hk]
      have hright : p.filter (fun a => decide (key a = k) && decide (key y < key a)) = [] := by
        refine List.filter_eq_nil_iff.mpr fun a _ => ?_
        by_cases ha : key a = k <;> simp [ha, hk]
      rw [hleft, hright]
    · have hleft : p.filter (fun a => decide (key a = k) && decide (key a ≤ key y)) = [] := by
        refine List.filter_eq_nil_iff.mpr fun a _ => ?_
        by_cases ha : key a = k <;> simp [ha, hk]
      have hright : p.filter (fun a => decide (key a = k) && decide (key y < key a)) =
          p.filter (key · = k) := by
        refine List.filter_congr fun a _ => ?_
        by_cases ha : key a = k <;> simp [ha, not_le.mp hk]
      have hne : key y ≠ k := fun h => hk h.ge
      simp [hleft, hright, hne]

/-- `ISORT` sorts, and is stable. -/
private theorem isortOuter_append (hcomp : Compares comp key) {p : List α}
    (hp : p.Pairwise fun a b => key a ≤ key b) (rest : List α) :
    ∃ s, isortOuter comp rest.length p.length (p ++ rest) = some s ∧
      StableSort key (p ++ rest) s := by
  induction rest generalizing p with
  | nil => exact ⟨p ++ [], rfl, by simpa using hp, fun k => rfl⟩
  | cons y rest ih =>
    have hround := stableSort_insert hp y
    obtain ⟨s, hs, hsort⟩ := ih hround.sorted
    have hlen : (p.filter (key · ≤ key y) ++ y :: p.filter (key y < key ·)).length =
        p.length + 1 := by
      have hnot : p.filter (fun a => !decide (key a ≤ key y)) = p.filter (key y < key ·) := by
        simp only [← decide_not, not_le]
      rw [List.length_append, List.length_cons, ← hnot, ← Nat.add_assoc,
        ← List.length_eq_length_filter_add]
    rw [hlen, List.append_assoc, List.cons_append] at hs
    refine ⟨s, ?_, hsort.sorted, fun k => ?_⟩
    · rw [List.length_cons, isortOuter, isortInner_append hcomp hp]
      exact hs
    · rw [hsort.same, List.filter_append, hround.same, ← List.filter_append, List.append_assoc,
        List.singleton_append]

theorem isort_stable (hcomp : Compares comp key) (base : List α) :
    ∃ s, isort comp base = some s ∧ StableSort key base s := by
  cases base with
  | nil => exact ⟨[], rfl, .nil, fun _ => rfl⟩
  | cons a base => exact isortOuter_append (p := [a]) hcomp (List.pairwise_singleton ..) base

private theorem shiftTail_append (p : List α) (x : α) (q junk : List α) :
    ∃ junk', shiftTail q.length p.length (p ++ x :: (q ++ junk)) = some (p ++ (q ++ junk')) := by
  induction q generalizing p x with
  | nil => exact ⟨x :: junk, rfl⟩
  | cons y q ih =>
    obtain ⟨junk', h⟩ := ih (p ++ [y]) y
    have hget : (p ++ x :: (y :: q ++ junk))[p.length + 1]? = some y := by simp
    have hset : (p ++ x :: (y :: q ++ junk)).set p.length y = p ++ [y] ++ y :: (q ++ junk) := by
      simp
    refine ⟨junk', ?_⟩
    rw [List.length_cons, shiftTail, hget, Option.bind_eq_bind, Option.bind_some, hset]
    simpa using h

/-- Whatever stands behind the table, `COMPRESS` keeps the last of equal entries. -/
private theorem compressLoop_append (hcomp : Compares comp key) (fuel : ℕ)
    (p rest junk : List α) (hfuel : rest.length ≤ fuel) :
    ∃ base num, compressLoop comp fuel p.length (p ++ (rest ++ junk)) (p.length + rest.length) =
      some (base, num) ∧ base.take num = p ++ keepLast key rest := by
  induction fuel generalizing p rest junk with
  | zero =>
    obtain rfl := List.length_eq_zero_iff.mp (Nat.le_zero.mp hfuel)
    exact ⟨_, _, if_neg (by simp), by simp [keepLast]⟩
  | succ fuel ih =>
    rcases rest with _ | ⟨a, _ | ⟨b, rest⟩⟩
    · exact ⟨_, _, if_neg (by simp), by simp [keepLast]⟩
    · exact ⟨_, _, if_neg (by simp), List.take_length_add_append ..⟩
    have hget : (p ++ (a :: b :: rest ++ junk))[p.length]? = some a := by simp
    have hget' : (p ++ (a :: b :: rest ++ junk))[p.length + 1]? = some b := by simp
    rw [compressLoop, if_pos (by simp), hget, hget']
    simp only [Option.bind_eq_bind, Option.bind_some]
    by_cases hkey : key a = key b
    · obtain ⟨junk', hshift⟩ := shiftTail_append p a (b :: rest) junk
      have hnum : p.length + (a :: b :: rest).length - 1 = p.length + (b :: rest).length := by
        simp only [List.length_cons]
        omega
      obtain ⟨base, num, hloop, htake⟩ := ih p (b :: rest) junk' (by simpa using hfuel)
      refine ⟨base, num, ?_, ?_⟩
      · rw [if_pos ((hcomp a b).2.mpr hkey), hnum, Nat.add_sub_cancel_left, List.cons_append,
          hshift, Option.bind_some, hloop]
      · rw [htake, keepLast, if_pos hkey]
    · obtain ⟨base, num, hloop, htake⟩ := ih (p ++ [a]) (b :: rest) junk (by simpa using hfuel)
      refine ⟨base, num, ?_, ?_⟩
      · rw [if_neg fun h => hkey ((hcomp a b).2.mp h), ← hloop]
        simp [Nat.add_assoc, Nat.add_comm 1]
      · rw [htake, keepLast, if_neg hkey]
        simp

theorem compress_eq_keepLast (hcomp : Compares comp key) (base : List α) :
    compress comp base = some (keepLast key base) := by
  obtain ⟨base', num, hloop, htake⟩ := compressLoop_append hcomp base.length [] base [] le_rfl
  simp only [List.length_nil, List.nil_append, List.append_nil, Nat.zero_add] at hloop htake
  rw [compress, hloop, Option.bind_eq_bind, Option.bind_some, htake]

end Removed

theorem compares_xtableCompOld : Compares xtableCompOld OldXtable.cOld := by
  intro a b
  obtain ⟨ha, ha'⟩ := a.range
  obtain ⟨hb, hb'⟩ := b.range
  -- no difference of two code points wraps
  have hdiff : xtableCompOld a b = a.cOld - b.cOld := Int.bmod_eq_of_le (by omega) (by omega)
  rw [hdiff]
  omega

/-! ### `qsort` and one pass -/

/-- What `qsort` promises. -/
structure Qsorted (base sorted : List Xtable) : Prop where
  perm : sorted.Perm base
  ordered : sorted.Pairwise fun x y => xtableComp x y ≤ 0

private theorem xtableComp_le_zero {x y : Xtable} (h : xtableComp x y ≤ 0) :
    x.cOld ≤ y.cOld ∧ (x.cOld = y.cOld → x.idx ≤ y.idx) := by
  rw [xtableComp] at h
  split at h
  · split at h <;> omega
  · split at h
    · omega
    · split at h <;> omega

@[simp] theorem map_toOldXtable_fill (entries : List OldXtable) :
    (fill entries).map Xtable.toOldXtable = entries := by
  rw [fill, List.map_map]
  exact List.zipIdx_map_fst 0 entries

theorem pairwise_fill (entries : List OldXtable) :
    (fill entries).Pairwise fun x y => x.idx < y.idx := by
  rw [fill, List.pairwise_map, ← List.pairwise_map (f := Prod.snd) (R := (· < ·)),
    List.zipIdx_map_snd]
  exact List.pairwise_lt_range'

private theorem eq_of_idx_eq {entries : List OldXtable} {x y : Xtable} (hx : x ∈ fill entries)
    (hy : y ∈ fill entries) (h : x.idx = y.idx) : x = y := by
  have hne := pairwise_fill entries
  refine List.Pairwise.forall_of_forall_of_flip (R := fun x y : Xtable => x.idx = y.idx → x = y)
    (fun _ _ _ => rfl) (hne.imp ?_) (hne.imp ?_) hx hy h
  · intro x y hlt heq
    exact absurd heq hlt.ne
  · intro x y hlt heq
    exact absurd heq hlt.ne'

/-- With the position to break ties, any sort is stable. -/
theorem Qsorted.stableSort {entries : List OldXtable} {sorted : List Xtable}
    (h : Qsorted (fill entries) sorted) :
    StableSort (fun x : Xtable => x.cOld) (fill entries) sorted where
  sorted := h.ordered.imp fun hle => (xtableComp_le_zero hle).1
  same k := by
    have hsorted : (sorted.filter (·.cOld = k)).Pairwise fun x y => x.idx ≤ y.idx := by
      refine (h.ordered.filter _).imp_of_mem fun {x y} hx hy hle => ?_
      have hxk : x.cOld = k := of_decide_eq_true (List.mem_filter.mp hx).2
      have hyk : y.cOld = k := of_decide_eq_true (List.mem_filter.mp hy).2
      exact (xtableComp_le_zero hle).2 (hxk.trans hyk.symm)
    have hfill : ((fill entries).filter (·.cOld = k)).Pairwise fun x y => x.idx ≤ y.idx :=
      ((pairwise_fill entries).filter _).imp Nat.le_of_lt
    refine List.Perm.eq_of_pairwise (fun x y hx hy hxy hyx => ?_) hsorted hfill (h.perm.filter _)
    exact eq_of_idx_eq (h.perm.subset (List.mem_of_mem_filter hx)) (List.mem_of_mem_filter hy)
      (Nat.le_antisymm hxy hyx)

/-- A round writes no further than where it reads, so that the rest is as it was: `kept` is
what the loop has written, `stale` what stands between there and `i`. -/
private theorem dedupLoop_append {cnt i : ℕ} (kept stale rest : List Xtable)
    (hi : i = kept.length + stale.length) (hcnt : cnt = i + rest.length) :
    ∃ xtable j, dedupLoop cnt rest.length i kept.length (kept ++ (stale ++ rest)) =
      some (xtable, j) ∧ xtable.take j = kept ++ keepLast (fun x : Xtable => x.cOld) rest := by
  induction rest generalizing i kept stale with
  | nil => exact ⟨_, _, rfl, by simp [keepLast]⟩
  | cons x rest ih =>
    have hget : (kept ++ (stale ++ x :: rest))[i]? = some x := by
      rw [← List.append_assoc, List.getElem?_append_right (by simp [hi])]
      simp [hi]
    -- the entry is kept, over the first stale one or in its own place
    have hkeep : ∃ xtable j, dedupLoop cnt rest.length (i + 1) (kept.length + 1)
        ((kept ++ (stale ++ x :: rest)).set kept.length x) = some (xtable, j) ∧
        xtable.take j = kept ++ x :: keepLast (fun x : Xtable => x.cOld) rest := by
      have hset : (kept ++ (stale ++ x :: rest)).set kept.length x =
          kept ++ [x] ++ ((stale ++ [x]).tail ++ rest) := by
        cases stale <;> simp
      obtain ⟨xtable, j, hloop, htake⟩ := ih (i := i + 1) (kept ++ [x]) (stale ++ [x]).tail
        (by simp [hi]; omega) (by simp [hcnt]; omega)
      rw [List.length_append, List.length_singleton, ← hset] at hloop
      exact ⟨xtable, j, hloop, by simp [htake]⟩
    rw [List.length_cons, dedupLoop, hget, Option.bind_eq_bind, Option.bind_some]
    cases rest with
    | nil =>
      have hlast : i + 1 = cnt := by simp [hcnt]
      simpa [hlast, keepLast] using hkeep
    | cons y rest =>
      have hlast : ¬ i + 1 = cnt := by simp [hcnt]
      have hnext : (kept ++ (stale ++ x :: y :: rest))[i + 1]? = some y := by
        rw [← List.append_assoc, List.getElem?_append_right (by simp [hi])]
        simp [hi]
      rw [if_neg hlast, hnext]
      simp only [Option.bind_eq_bind, Option.bind_some, keepLast]
      by_cases hxy : x.cOld = y.cOld
      · obtain ⟨xtable, j, hloop, htake⟩ := ih (i := i + 1) kept (stale ++ [x])
          (by simp [hi]; omega) (by simp [hcnt]; omega)
        rw [List.append_assoc, List.singleton_append] at hloop
        simpa [hxy] using ⟨xtable, j, hloop, htake⟩
      · simpa [hxy] using hkeep

theorem dedup_eq_keepLast (xtable : List Xtable) :
    dedup xtable = some (keepLast (fun x : Xtable => x.cOld) xtable) := by
  obtain ⟨xtable', j, hloop, htake⟩ := dedupLoop_append [] [] xtable rfl (Nat.zero_add _).symm
  simp only [List.length_nil, List.nil_append, Nat.zero_add] at hloop htake
  rw [dedup, hloop, Option.bind_eq_bind, Option.bind_some, htake]

/-! ### The two tables -/

/-- What the table was: the last entries, in the order of their characters. -/
theorem tableOld_spec (entries : List OldXtable) :
    ∃ table, tableOld entries = some table ∧
      table.Pairwise (fun a b => a.cOld < b.cOld) ∧
      ∀ e, e ∈ table ↔ IsLast OldXtable.cOld entries e := by
  obtain ⟨xtable, hisort, hstable⟩ := isort_stable compares_xtableCompOld entries
  refine ⟨keepLast OldXtable.cOld xtable, ?_, pairwise_keepLast hstable.sorted, fun e => ?_⟩
  · rw [tableOld, hisort, Option.bind_eq_bind, Option.bind_some,
      compress_eq_keepLast compares_xtableCompOld]
  · rw [mem_keepLast hstable.sorted, hstable.isLast]

/-- What it is now, without the positions. -/
theorem dedup_spec {entries : List OldXtable} {sorted : List Xtable}
    (h : Qsorted (fill entries) sorted) :
    ∃ table, (dedup sorted).map (List.map Xtable.toOldXtable) = some table ∧
      table.Pairwise (fun a b => a.cOld < b.cOld) ∧
      ∀ e, e ∈ table ↔ IsLast OldXtable.cOld entries e := by
  have hstable : StableSort OldXtable.cOld entries (sorted.map Xtable.toOldXtable) := by
    rw [← map_toOldXtable_fill entries]
    exact h.stableSort.map
  refine ⟨keepLast OldXtable.cOld (sorted.map Xtable.toOldXtable), ?_,
    pairwise_keepLast hstable.sorted, fun e => ?_⟩
  · rw [dedup_eq_keepLast, keepLast_map]
    rfl
  · rw [mem_keepLast hstable.sorted, hstable.isLast]

/-- However `qsort` orders what the comparator leaves open, the table is the one that the
macros left: strictly in the order of the characters, and with the last entry of each. -/
theorem sort_dedup_eq {entries : List OldXtable} {sorted : List Xtable}
    (h : Qsorted (fill entries) sorted) :
    ∃ table, tableOld entries = some table ∧
      (dedup sorted).map (List.map Xtable.toOldXtable) = some table ∧
      table.Pairwise (fun a b => a.cOld < b.cOld) ∧
      ∀ e, e ∈ table ↔ IsLast OldXtable.cOld entries e := by
  obtain ⟨table, hold, hsorted, hmem⟩ := tableOld_spec entries
  obtain ⟨table', hnew, hsorted', hmem'⟩ := dedup_spec h
  obtain rfl := eq_of_isLast hsorted hsorted' hmem hmem'
  exact ⟨table, hold, hnew, hsorted, hmem⟩

/-- The entries of `chartr("abab", "wxyz", x)`. -/
def twice : List OldXtable :=
  [⟨'a'.toNat, 'w'.toNat, by decide⟩, ⟨'b'.toNat, 'x'.toNat, by decide⟩,
    ⟨'a'.toNat, 'y'.toNat, by decide⟩, ⟨'b'.toNat, 'z'.toNat, by decide⟩]

/-- The last of the two mappings of each character is left. -/
theorem sort_dedup_eq_twice :
    (dedup [⟨twice[0], 0⟩, ⟨twice[2], 2⟩, ⟨twice[1], 1⟩, ⟨twice[3], 3⟩]).map
        (List.map Xtable.toOldXtable) = some [twice[2], twice[3]] ∧
      tableOld twice = some [twice[2], twice[3]] := by
  have h : Qsorted (fill twice) [⟨twice[0], 0⟩, ⟨twice[2], 2⟩, ⟨twice[1], 1⟩, ⟨twice[3], 3⟩] :=
    ⟨by decide, by decide⟩
  obtain ⟨table, hold, hnew, -, -⟩ := sort_dedup_eq h
  have htable : tableOld twice = some [twice[2], twice[3]] := by decide +kernel
  exact ⟨hnew.trans (hold.symm.trans htable), htable⟩

end ROssFuzz.ChartrTable
