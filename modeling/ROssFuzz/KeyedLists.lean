import Mathlib.Data.List.Sort

/-!
# Lists with keys

Entries with a key that may come more than once. A stable sort keeps the entries of one
key in their order; of a sorted list, `keepLast` keeps the last entry of each key. The
result depends on nothing but the last entries of the list before it was sorted.
-/

namespace ROssFuzz.KeyedLists

variable {α β κ : Type} (key : α → κ)

/-- The entry is the last one with its key. -/
def IsLast (l : List α) (a : α) : Prop :=
  ∃ before after, l = before ++ a :: after ∧ ∀ b ∈ after, key b ≠ key a

@[simp] theorem not_isLast_nil (a : α) : ¬ IsLast key [] a := by
  simp [IsLast]

variable {key} in
theorem isLast_cons {l : List α} {a b : α} :
    IsLast key (b :: l) a ↔ IsLast key l a ∨ b = a ∧ ∀ c ∈ l, key c ≠ key a := by
  constructor
  · rintro ⟨before, after, hl, hafter⟩
    cases before with
    | nil =>
      obtain ⟨rfl, rfl⟩ := List.cons_eq_cons.mp hl
      exact .inr ⟨rfl, hafter⟩
    | cons c before =>
      obtain ⟨rfl, rfl⟩ := List.cons_eq_cons.mp hl
      exact .inl ⟨before, after, rfl, hafter⟩
  · rintro (⟨before, after, rfl, hafter⟩ | ⟨rfl, hl⟩)
    · exact ⟨b :: before, after, rfl, hafter⟩
    · exact ⟨[], l, rfl, hl⟩

variable [LinearOrder κ]

/-- `s` is `l` sorted by the key, with the entries of each key in their order. -/
structure StableSort (l s : List α) : Prop where
  sorted : s.Pairwise fun a b => key a ≤ key b
  same : ∀ k, s.filter (key · = k) = l.filter (key · = k)

/-- Drop each entry whose successor has the same key. -/
def keepLast : List α → List α
  | a :: b :: l => if key a = key b then keepLast (b :: l) else a :: keepLast (b :: l)
  | l => l

variable {key}

theorem isLast_iff {l : List α} {a : α} :
    IsLast key l a ↔ (l.filter (key · = key a)).getLast? = some a := by
  induction l with
  | nil => simp
  | cons b l ih =>
    rw [isLast_cons, ih, List.filter_cons]
    by_cases hb : key b = key a
    · rw [decide_eq_true hb, if_pos rfl, List.getLast?_cons]
      cases hlast : (l.filter (key · = key a)).getLast? with
      | none =>
        have hnone : ∀ c ∈ l, key c ≠ key a := by
          simpa [List.getLast?_eq_none_iff, List.filter_eq_nil_iff] using hlast
        simp [and_iff_left hnone]
      | some c =>
        have hmem := List.mem_of_getLast? hlast
        rw [List.mem_filter, decide_eq_true_eq] at hmem
        have hsome : ¬ ∀ c ∈ l, key c ≠ key a := fun h => h c hmem.1 hmem.2
        simp [hsome]
    · have hne : b ≠ a := fun h => hb (congrArg key h)
      simp [hb, hne]

/-- Sorting stably changes no last entry. -/
theorem StableSort.isLast {l s : List α} (h : StableSort key l s) {a : α} :
    IsLast key s a ↔ IsLast key l a := by
  rw [isLast_iff, isLast_iff, h.same]

/-- A stable sort is one still when what the key does not need is dropped. -/
theorem StableSort.map {f : β → α} {l s : List β} (h : StableSort (key ∘ f) l s) :
    StableSort key (l.map f) (s.map f) where
  sorted := List.pairwise_map.mpr h.sorted
  same k := by
    rw [List.filter_map, List.filter_map]
    exact congrArg _ (h.same k)

/-! ### Keeping the last entries -/

theorem mem_of_mem_keepLast {s : List α} {a : α} (h : a ∈ keepLast key s) : a ∈ s := by
  induction s using keepLast.induct key with
  | case1 b c s hkey ih =>
    rw [keepLast, if_pos hkey] at h
    exact List.mem_cons_of_mem _ (ih h)
  | case2 b c s hkey ih =>
    rw [keepLast, if_neg hkey] at h
    rcases List.mem_cons.mp h with rfl | h
    · exact List.mem_cons_self
    · exact List.mem_cons_of_mem _ (ih h)
  | case3 s hshort =>
    rwa [keepLast] at h
    exact hshort

/-- One entry is left of each key. -/
theorem pairwise_keepLast {s : List α} (hs : s.Pairwise fun a b => key a ≤ key b) :
    (keepLast key s).Pairwise fun a b => key a < key b := by
  induction s using keepLast.induct key with
  | case1 b c s hkey ih =>
    rw [keepLast, if_pos hkey]
    exact ih hs.of_cons
  | case2 b c s hkey ih =>
    rw [keepLast, if_neg hkey, List.pairwise_cons]
    refine ⟨fun d hd => ?_, ih hs.of_cons⟩
    have hbc : key b < key c := lt_of_le_of_ne (List.rel_of_pairwise_cons hs (by simp)) hkey
    rcases List.mem_cons.mp (mem_of_mem_keepLast hd) with rfl | hd
    · exact hbc
    · exact hbc.trans_le (List.rel_of_pairwise_cons hs.of_cons hd)
  | case3 s hshort =>
    match s with
    | [] | [_] => simp [keepLast]
    | b :: c :: s => exact absurd rfl (hshort b c s)

/-- It is the last one. -/
theorem mem_keepLast {s : List α} (hs : s.Pairwise fun a b => key a ≤ key b) {a : α} :
    a ∈ keepLast key s ↔ IsLast key s a := by
  induction s using keepLast.induct key with
  | case1 b c s hkey ih =>
    have hfollowed : ¬ (b = a ∧ ∀ d ∈ c :: s, key d ≠ key a) := by
      rintro ⟨rfl, h⟩
      exact h c (by simp) hkey.symm
    rw [keepLast, if_pos hkey, ih hs.of_cons, isLast_cons (b := b), or_iff_left hfollowed]
  | case2 b c s hkey ih =>
    have hend : ∀ d ∈ c :: s, key d ≠ key b := by
      have hbc : key b < key c := lt_of_le_of_ne (List.rel_of_pairwise_cons hs (by simp)) hkey
      intro d hd
      rcases List.mem_cons.mp hd with rfl | hd
      · exact hbc.ne'
      · exact (hbc.trans_le (List.rel_of_pairwise_cons hs.of_cons hd)).ne'
    have hself : a = b ↔ b = a ∧ ∀ d ∈ c :: s, key d ≠ key a := by
      constructor
      · rintro rfl
        exact ⟨rfl, hend⟩
      · exact fun h => h.1.symm
    rw [keepLast, if_neg hkey, List.mem_cons, ih hs.of_cons, isLast_cons (b := b), or_comm, hself]
  | case3 s hshort =>
    match s with
    | [] => simp [keepLast]
    | [b] => simp [keepLast, isLast_cons, eq_comm]
    | b :: c :: s => exact absurd rfl (hshort b c s)

/-- The last entries, in the order of their keys, are one list only. -/
theorem eq_of_isLast {l s t : List α} (hs : s.Pairwise fun a b => key a < key b)
    (ht : t.Pairwise fun a b => key a < key b) (hmems : ∀ a, a ∈ s ↔ IsLast key l a)
    (hmemt : ∀ a, a ∈ t ↔ IsLast key l a) : s = t := by
  have hirrefl : Std.Irrefl fun a b : α => key a < key b := ⟨fun a => lt_irrefl (key a)⟩
  have hasymm : Std.Asymm fun a b : α => key a < key b := ⟨fun a b => lt_asymm⟩
  exact hs.eq_of_mem_iff ht fun a => (hmems a).trans (hmemt a).symm

theorem keepLast_map (f : β → α) (s : List β) :
    keepLast key (s.map f) = (keepLast (key ∘ f) s).map f := by
  induction s using keepLast.induct (key ∘ f) with
  | case1 b c s hkey ih =>
    rw [keepLast, if_pos hkey]
    exact (if_pos hkey).trans ih
  | case2 b c s hkey ih =>
    rw [keepLast, if_neg hkey]
    exact (if_neg hkey).trans (congrArg _ ih)
  | case3 s hshort =>
    match s with
    | [] | [_] => rfl
    | b :: c :: s => exact absurd rfl (hshort b c s)

end ROssFuzz.KeyedLists
