import ROssFuzz.Bisection
import ROssFuzz.NodeTables
import Mathlib.Data.Int.Order.Basic

/-!
# Finding the node of an offset

`OffsetToNode` bisects the table of offsets that the first pass has filled, whatever the
file had for it. Its `l`, `r` and `m` are `int`s, and what leaves the type or the table is a
fault. The codes it answers before the search are left out.
-/

namespace ROssFuzz.OffsetSearch
open CheckedOperations Bisection NodeTables

variable {Obj : Type}

/-- A round of the loop: the node found, or the new `l` and `r`. -/
def searchRound (node : NodeInfo Obj) (offset l r : ℤ) : Except Stop (Obj ⊕ ℤ × ℤ) := do
  let sum ← asInt (l + r)
  let m := sum.tdiv 2
  let old ← loadAt node.oldOffset m
  if offset = old then
    let x ← loadAt node.newAddress m
    return .inl x
  else if offset < old then
    let r ← asInt (m - 1)
    return .inr (l, r)
  else
    let l ← asInt (m + 1)
    return .inr (l, r)

/-- The loop, `none` if `fuel` rounds do not end it, with `none` for the way that falls
through to the unresolved node. -/
def searchLoop (node : NodeInfo Obj) (offset : ℤ) :
    ℕ → ℤ → ℤ → Option (Except Stop (Option Obj))
  | 0, l, r => if l ≤ r then none else some (.ok none)
  | fuel + 1, l, r =>
      if l ≤ r then
        match searchRound node offset l r with
        | .error e => some (.error e)
        | .ok (.inl x) => some (.ok (some x))
        | .ok (.inr (l, r)) => searchLoop node offset fuel l r
      else some (.ok none)

/-- `OffsetToNode` from `l = 0` on. Each round takes an index out of the range. -/
def offsetToNode (node : NodeInfo Obj) (offset : ℤ) : Option (Except Stop (Option Obj)) :=
  searchLoop node offset node.nTotal.toNat 0 (node.nTotal - 1)

/-- The tables as `DataLoad` sizes them. -/
structure Sized (node : NodeInfo Obj) : Prop where
  nonneg : 0 ≤ node.nTotal
  le_intMax : node.nTotal ≤ intMax
  offsets : node.oldOffset.length = node.nTotal
  addresses : node.newAddress.length = node.nTotal

/-- The search ends without a fault, and if the offsets are in order, with the address at an
index of the offset sought, or unresolved if there is none. -/
def Resolves (node : NodeInfo Obj) (offset : ℤ) : Prop :=
  ∃ result, offsetToNode node offset = some (.ok result) ∧
    (node.oldOffset.Pairwise (· ≤ ·) →
      (offset ∈ node.oldOffset → ∃ (i : ℕ) (x : Obj), node.oldOffset[i]? = some offset ∧
        node.newAddress[i]? = some x ∧ result = some x) ∧
      (offset ∉ node.oldOffset → result = none))

/-- How the offset sought compares with that at an index. -/
def order (node : NodeInfo Obj) (offset i : ℤ) : Ordering :=
  compare offset (node.oldOffset.getD i.toNat 0)

variable {node : NodeInfo Obj} {offset l r : ℤ}

private theorem searchRound_overflow (h : intMax < l + r) :
    searchRound node offset l r = .error .fault := by
  rw [searchRound, asInt_of_gt h]
  rfl

/-- A round that computes the middle of its range compares there. -/
private theorem searchRound_eq (hnode : Sized node) (hl : 0 ≤ l) (hlr : l ≤ r)
    (hr : r < node.nTotal) (h : l + r ≤ intMax) :
    (order node offset ((l + r) / 2) = .eq ∧ ∃ x, node.newAddress[((l + r) / 2).toNat]? = some x ∧
      searchRound node offset l r = .ok (.inl x)) ∨
    (order node offset ((l + r) / 2) = .lt ∧
      searchRound node offset l r = .ok (.inr (l, (l + r) / 2 - 1))) ∨
    (order node offset ((l + r) / 2) = .gt ∧
      searchRound node offset l r = .ok (.inr ((l + r) / 2 + 1, r))) := by
  obtain ⟨-, hmax, hoffsets, haddresses⟩ := hnode
  have hmin : intMin ≤ -1 := by decide
  have hsum : asInt (l + r) = .ok (l + r) := asInt_of_mem (by omega) h
  have hdiv : (l + r).tdiv 2 = (l + r) / 2 := Int.tdiv_eq_ediv_of_nonneg (by omega)
  obtain ⟨m, hm⟩ := Int.eq_ofNat_of_zero_le (a := (l + r) / 2) (by omega)
  have hlt : m < node.oldOffset.length := by omega
  have hlt' : m < node.newAddress.length := by omega
  have hold : node.oldOffset.getD m 0 = node.oldOffset[m] := by
    rw [List.getD_eq_getElem?_getD, List.getElem?_eq_getElem hlt, Option.getD_some]
  have hbelow : asInt (m - 1) = .ok (m - 1 : ℤ) := asInt_of_mem (by omega) (by omega)
  have habove : asInt (m + 1) = .ok (m + 1 : ℤ) := asInt_of_mem (by omega) (by omega)
  have hround : searchRound node offset l r =
      if offset = node.oldOffset[m] then .ok (.inl node.newAddress[m])
      else if offset < node.oldOffset[m] then .ok (.inr (l, m - 1))
      else .ok (.inr (m + 1, r)) := by
    simp only [searchRound, hsum, bind, Except.bind, hdiv, hm, loadAt_natCast, load_of_lt hlt,
      load_of_lt hlt', hbelow, habove]
    rfl
  rw [hm, order, Int.toNat_natCast, hold, hround]
  rcases lt_trichotomy offset node.oldOffset[m] with hcmp | hcmp | hcmp
  · exact .inr (.inl ⟨compare_lt_iff_lt.mpr hcmp, by rw [if_neg (ne_of_lt hcmp), if_pos hcmp]⟩)
  · exact .inl ⟨compare_eq_iff_eq.mpr hcmp, _, List.getElem?_eq_getElem hlt', if_pos hcmp⟩
  · exact .inr (.inr ⟨compare_gt_iff_gt.mpr hcmp, by
      rw [if_neg (ne_of_gt hcmp), if_neg (not_lt_of_gt hcmp)]⟩)

/-- The loop bisects, as long as the sums that it halves are `int`s. -/
private theorem searchLoop_eq (hnode : Sized node) (fuel : ℕ) (hl : 0 ≤ l)
    (hr : r < node.nTotal) (hfuel : r + 1 - l ≤ fuel)
    (h : ∀ l' r', Visits (order node offset) l r l' r' → l' + r' ≤ intMax) :
    ∃ result, searchLoop node offset fuel l r = some (.ok result) ∧
      (∀ m, bisect (order node offset) l r = some m →
        node.newAddress[m.toNat]? = result ∧ result ≠ none) ∧
      (bisect (order node offset) l r = none → result = none) := by
  induction fuel generalizing l r with
  | zero =>
    have hlr : ¬ l ≤ r := by omega
    rw [searchLoop, if_neg hlr, bisect, if_neg hlr]
    refine ⟨none, rfl, fun m hm => ?_, fun _ => rfl⟩
    cases hm
  | succ fuel ih =>
    by_cases hlr : l ≤ r
    swap
    · rw [searchLoop, if_neg hlr, bisect, if_neg hlr]
      refine ⟨none, rfl, fun m hm => ?_, fun _ => rfl⟩
      cases hm
    rw [searchLoop, if_pos hlr, bisect, if_pos hlr]
    rcases searchRound_eq hnode hl hlr hr (h l r (.here hlr)) with
      ⟨heq, x, hx, hround⟩ | ⟨hlt, hround⟩ | ⟨hgt, hround⟩
    · rw [hround, heq]
      refine ⟨some x, rfl, fun m hm => ?_, fun hm => ?_⟩
      · rw [← Option.some.inj hm]
        exact ⟨hx, Option.some_ne_none x⟩
      · cases hm
    · rw [hround, hlt]
      exact ih hl (by omega) (by omega) fun l' r' htail => h l' r' (.left hlr hlt htail)
    · rw [hround, hgt]
      exact ih (by omega) hr (by omega) fun l' r' htail => h l' r' (.right hlr hgt htail)

/-- A range whose ends sum to more than an `int` stops the search. -/
private theorem searchLoop_overflow (hnode : Sized node) {fuel : ℕ} (hl : 0 ≤ l)
    (hr : r < node.nTotal) (hfuel : r + 1 - l ≤ fuel) {l' r' : ℤ}
    (hvisit : Visits (order node offset) l r l' r') (h : intMax < l' + r') :
    searchLoop node offset fuel l r = some (.error .fault) := by
  induction hvisit generalizing fuel with
  | @here l r hlr =>
    obtain ⟨fuel, rfl⟩ := Nat.exists_eq_succ_of_ne_zero (n := fuel) (by omega)
    rw [searchLoop, if_pos hlr, searchRound_overflow h]
  | @left l r l' r' hlr hlt tail ih =>
    obtain ⟨fuel, rfl⟩ := Nat.exists_eq_succ_of_ne_zero (n := fuel) (by omega)
    rw [searchLoop, if_pos hlr]
    by_cases hsum : l + r ≤ intMax
    · rcases searchRound_eq hnode hl hlr hr hsum with ⟨heq, -⟩ | ⟨-, hround⟩ | ⟨hgt, -⟩
      · rw [hlt] at heq; cases heq
      · rw [hround]
        exact ih hl (by omega) (by omega) h
      · rw [hlt] at hgt; cases hgt
    · rw [searchRound_overflow (by omega)]
  | @right l r l' r' hlr hgt tail ih =>
    obtain ⟨fuel, rfl⟩ := Nat.exists_eq_succ_of_ne_zero (n := fuel) (by omega)
    rw [searchLoop, if_pos hlr]
    by_cases hsum : l + r ≤ intMax
    · rcases searchRound_eq hnode hl hlr hr hsum with ⟨heq, -⟩ | ⟨hlt, -⟩ | ⟨-, hround⟩
      · rw [hgt] at heq; cases heq
      · rw [hgt] at hlt; cases hlt
      · rw [hround]
        exact ih (by omega) hr (by omega) h
    · rw [searchRound_overflow (by omega)]

/-! ### When the search is right -/

private theorem order_natCast {i : ℕ} (h : i < node.oldOffset.length) :
    order node offset i = compare offset node.oldOffset[i] := by
  rw [order, Int.toNat_natCast, List.getD_eq_getElem?_getD, List.getElem?_eq_getElem h,
    Option.getD_some]

private theorem ascending_order (offset : ℤ) (h : node.oldOffset.Pairwise (· ≤ ·)) :
    Ascending (order node offset) 0 (node.oldOffset.length - 1) := by
  intro i j hi hij hj
  obtain ⟨i, rfl⟩ := Int.eq_ofNat_of_zero_le hi
  obtain ⟨j, rfl⟩ := Int.eq_ofNat_of_zero_le (a := j) (by omega)
  have hjlt : j < node.oldOffset.length := by omega
  have hle : node.oldOffset[i] ≤ node.oldOffset[j] := by
    rcases Nat.lt_or_eq_of_le (by omega : i ≤ j) with hlt | rfl
    · exact List.pairwise_iff_getElem.mp h i j (by omega) hjlt hlt
    · exact le_rfl
  rw [order_natCast (by omega), order_natCast hjlt]
  simp only [compare_lt_iff_lt, compare_gt_iff_gt]
  omega

theorem offsetToNode_overflow (hnode : Sized node)
    (hvisit : Visits (order node offset) 0 (node.nTotal - 1) l r) (h : intMax < l + r) :
    offsetToNode node offset = some (.error .fault) := by
  have hnonneg := hnode.nonneg
  exact searchLoop_overflow hnode le_rfl (by omega) (by omega) hvisit h

theorem resolves_of_visits (hnode : Sized node)
    (h : ∀ l r, Visits (order node offset) 0 (node.nTotal - 1) l r → l + r ≤ intMax) :
    Resolves node offset := by
  have hnonneg := hnode.nonneg
  have hoffsets := hnode.offsets
  obtain ⟨result, hresult, hfound, hmissing⟩ :=
    searchLoop_eq hnode node.nTotal.toNat le_rfl (by omega) (by omega) h
  refine ⟨result, hresult, fun hsorted => ?_⟩
  cases hm : bisect (order node offset) 0 (node.nTotal - 1) with
  | some m =>
    obtain ⟨hl, hr, heq⟩ := bisect_sound hm
    obtain ⟨m, rfl⟩ := Int.eq_ofNat_of_zero_le hl
    have hlt : m < node.oldOffset.length := by omega
    rw [order_natCast hlt, compare_eq_iff_eq] at heq
    obtain ⟨haddress, hsome⟩ := hfound m hm
    rw [Int.toNat_natCast] at haddress
    obtain ⟨x, rfl⟩ := Option.ne_none_iff_exists'.mp hsome
    refine ⟨fun _ => ⟨m, x, ?_, haddress, rfl⟩, fun hmem => ?_⟩
    · rw [List.getElem?_eq_getElem hlt, heq]
    · exact absurd (heq ▸ List.getElem_mem hlt) hmem
  | none =>
    refine ⟨fun hmem => ?_, fun _ => hmissing hm⟩
    obtain ⟨i, hi, hget⟩ := List.getElem_of_mem hmem
    have hascending := ascending_order offset hsorted
    rw [hoffsets] at hascending
    have hne := bisect_complete hascending hm (i := i) (by omega) (by omega)
    rw [order_natCast hi, hget] at hne
    exact absurd (compare_eq_iff_eq.mpr rfl) hne

/-- A table of equal offsets, smaller than the one sought. -/
private theorem visits_constant (nil : Obj) {n : ℤ} (h : 0 < n) :
    Visits (order ⟨n, List.replicate n.toNat 0, List.replicate n.toNat nil⟩ 1) 0 (n - 1)
      (n - 1) (n - 1) := by
  refine visits_last (fun i => ?_) (by omega)
  rw [order, List.getD_eq_getElem?_getD, List.getElem?_replicate]
  split <;> rfl

private theorem sized_constant (nil : Obj) {n : ℤ} (h₀ : 0 ≤ n) (h : n ≤ intMax) :
    Sized ⟨n, List.replicate n.toNat 0, List.replicate n.toNat nil⟩ := by
  refine ⟨h₀, h, ?_, ?_⟩ <;>
    rw [List.length_replicate, Int.toNat_of_nonneg h₀]

/-- For one table and offset, the search is right exactly when no range that bisecting the
table for the offset halves has ends that sum to more than an `int`; for a size of table, it
is right whatever the table and the offset exactly when the size is at most 2³⁰. -/
theorem offsetToNode_resolves_iff (nil : Obj) :
    (∀ (node : NodeInfo Obj) offset, Sized node → (Resolves node offset ↔
      ∀ l r, Visits (order node offset) 0 (node.nTotal - 1) l r → l + r ≤ intMax)) ∧
    ∀ n : ℤ, 0 ≤ n → n ≤ intMax →
      ((∀ (node : NodeInfo Obj) offset, Sized node → node.nTotal = n → Resolves node offset) ↔
        n ≤ 0x40000000) := by
  have hiff : ∀ (node : NodeInfo Obj) offset, Sized node → (Resolves node offset ↔
      ∀ l r, Visits (order node offset) 0 (node.nTotal - 1) l r → l + r ≤ intMax) := by
    refine fun node offset hnode => ⟨fun h l r hvisit => ?_, resolves_of_visits hnode⟩
    by_contra hsum
    obtain ⟨result, hresult, -⟩ := h
    rw [offsetToNode_overflow hnode hvisit (by omega)] at hresult
    cases hresult
  refine ⟨hiff, fun n h₀ hmax => ⟨fun h => ?_, fun hn node offset hnode htotal => ?_⟩⟩
  · by_contra hn
    have hsized := sized_constant nil h₀ hmax
    have hsum := (hiff _ 1 hsized).mp (h _ 1 hsized rfl) _ _ (visits_constant nil (by omega))
    simp only [intMax] at hsum
    omega
  · refine (hiff node offset hnode).mpr fun l r hvisit => ?_
    have hbounds := hvisit.bounds
    simp only [intMax]
    omega

theorem offsetToNode_resolves_iff_three : Resolves ⟨3, [8, 16, 24], [10, 11, 12]⟩ 16 :=
  ((offsetToNode_resolves_iff 0).2 3 (by decide) (by decide)).mpr (by decide) _ 16
    ⟨by decide, by decide, rfl, rfl⟩ rfl

/-- A table of equal offsets. -/
def constantTable (n : ℕ) : NodeInfo Unit := ⟨n, List.replicate n 0, List.replicate n ()⟩

/-- In a table of 2³⁰ + 1 of them the search for a larger one comes to the last node, and the
two ends sum to 2³¹. -/
theorem offsetToNode_overflows : Sized (constantTable 0x40000001) ∧
    offsetToNode (constantTable 0x40000001) 1 = some (.error .fault) ∧
    ¬ Resolves (constantTable 0x40000001) 1 := by
  have hsized : Sized (constantTable 0x40000001) :=
    sized_constant (n := 0x40000001) () (by decide) (by decide)
  have hfault : offsetToNode (constantTable 0x40000001) 1 = some (.error .fault) :=
    offsetToNode_overflow hsized (visits_constant (n := 0x40000001) () (by decide)) (by decide)
  refine ⟨hsized, hfault, ?_⟩
  rintro ⟨result, hresult, -⟩
  rw [hfault] at hresult
  cases hresult

end ROssFuzz.OffsetSearch
