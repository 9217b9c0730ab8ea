import Mathlib.Data.List.Basic

/-!
# The limits on parsed trees

`eval_tree_within_budget` walks what the parser returns before anything of it is evaluated.
One call counts the value it is given, and one more for every cell of a call or a pairlist;
it stops as soon as the count or the depth is past its limit. Depth and count are
`unsigned`, and the count wraps.
-/

namespace ROssFuzz.TreeBudget

/-- A parsed value by its `TYPEOF`: a call or a pairlist by the CARs of its cells. -/
inductive Sexp
  | langsxp (cars : List Sexp)
  | listsxp (cars : List Sexp)
  | exprsxp (elements : List Sexp)
  | other

/-- `FUZZ_MAX_DEPTH`. -/
def fuzzMaxDepth : UInt32 := 64

/-- `FUZZ_MAX_NODES`. -/
def fuzzMaxNodes : UInt32 := 1024

/-- What a walk returns and leaves in `*nodes`, and on the way the depths of the calls and
the values that `*nodes` takes. -/
structure Walk where
  within : Bool
  nodes : UInt32
  depths : List UInt32
  counts : List UInt32

/-- A walk that follows these calls and counts. -/
def Walk.after (depths counts : List UInt32) (w : Walk) : Walk :=
  { w with depths := depths ++ w.depths, counts := counts ++ w.counts }

mutual

/-- `eval_tree_within_budget`. -/
def evalTreeWithinBudget (x : Sexp) (depth nodes : UInt32) : Walk :=
  if depth > fuzzMaxDepth then ⟨false, nodes, [depth], []⟩
  else if nodes + 1 > fuzzMaxNodes then ⟨false, nodes + 1, [depth], [nodes + 1]⟩
  else .after [depth] [nodes + 1] <| match x with
    | .langsxp cars => cellsWithinBudget cars depth (nodes + 1)
    | .listsxp cars => cellsWithinBudget cars depth (nodes + 1)
    | .exprsxp elements => elementsWithinBudget elements depth (nodes + 1)
    | .other => ⟨true, nodes + 1, [], []⟩

/-- Its loop over the cells. -/
def cellsWithinBudget (cars : List Sexp) (depth nodes : UInt32) : Walk :=
  match cars with
  | [] => ⟨true, nodes, [], []⟩
  | car :: cdr =>
      if nodes + 1 > fuzzMaxNodes then ⟨false, nodes + 1, [], [nodes + 1]⟩
      else
        let w := evalTreeWithinBudget car (depth + 1) (nodes + 1)
        .after [] [nodes + 1] <|
          if w.within then .after w.depths w.counts (cellsWithinBudget cdr depth w.nodes) else w

/-- Its loop over the elements of an expression vector. -/
def elementsWithinBudget (elements : List Sexp) (depth nodes : UInt32) : Walk :=
  match elements with
  | [] => ⟨true, nodes, [], []⟩
  | x :: rest =>
      let w := evalTreeWithinBudget x (depth + 1) nodes
      if w.within then .after w.depths w.counts (elementsWithinBudget rest depth w.nodes) else w

end

/-! ### What it limits -/

mutual

/-- One for the value itself, for a call or a pairlist one more for every cell, and what is
in it. -/
def weight : Sexp → ℕ
  | .langsxp cars => 1 + cellsWeight cars
  | .listsxp cars => 1 + cellsWeight cars
  | .exprsxp elements => 1 + elementsWeight elements
  | .other => 1

def cellsWeight : List Sexp → ℕ
  | [] => 0
  | car :: cdr => 1 + weight car + cellsWeight cdr

def elementsWeight : List Sexp → ℕ
  | [] => 0
  | x :: rest => weight x + elementsWeight rest

end

mutual

/-- The deepest nesting of values. -/
def height : Sexp → ℕ
  | .langsxp cars => innerHeight cars
  | .listsxp cars => innerHeight cars
  | .exprsxp elements => innerHeight elements
  | .other => 0

def innerHeight : List Sexp → ℕ
  | [] => 0
  | x :: rest => max (1 + height x) (innerHeight rest)

end

/-- Values by induction, with what holds of everything that is in one. -/
theorem Sexp.induct {P : Sexp → Prop}
    (langsxp : ∀ cars, (∀ x ∈ cars, P x) → P (.langsxp cars))
    (listsxp : ∀ cars, (∀ x ∈ cars, P x) → P (.listsxp cars))
    (exprsxp : ∀ elements, (∀ x ∈ elements, P x) → P (.exprsxp elements))
    (other : P .other) (x : Sexp) : P x := by
  refine @Sexp.rec P (fun xs => ∀ x ∈ xs, P x) langsxp listsxp exprsxp other nofun ?_ x
  intro y rest hy hrest z hz
  rcases List.mem_cons.mp hz with rfl | hz
  · exact hy
  · exact hrest z hz

/-! ### The walk -/

variable {d n : UInt32} {x : Sexp} {w : Walk}

/-- What a walk from these decides and counts. -/
structure Measures (w : Walk) (depth nodes height weight : ℕ) : Prop where
  within_iff : w.within = true ↔ depth + height ≤ 64 ∧ nodes + weight ≤ 1024
  nodes_eq : w.within = true → w.nodes.toNat = nodes + weight

structure Bounded (w : Walk) : Prop where
  depths : ∀ e ∈ w.depths, e.toNat ≤ 65
  counts : ∀ c ∈ w.counts, c.toNat ≤ 1025

private theorem gt_fuzzMaxDepth_iff : d > fuzzMaxDepth ↔ 64 < d.toNat := Iff.rfl

private theorem gt_fuzzMaxNodes_iff : n > fuzzMaxNodes ↔ 1024 < n.toNat := Iff.rfl

private theorem toNat_succ (h : n.toNat < 0xffffffff) : (n + 1).toNat = n.toNat + 1 := by
  rw [UInt32.toNat_add, UInt32.toNat_one]
  omega

private theorem Bounded.after {depths counts : List UInt32} (h : Bounded w)
    (hdepths : ∀ e ∈ depths, e.toNat ≤ 65) (hcounts : ∀ c ∈ counts, c.toNat ≤ 1025) :
    Bounded (w.after depths counts) := by
  constructor
  · intro e he
    exact (List.mem_append.mp he).elim (hdepths e) (h.depths e)
  · intro c hc
    exact (List.mem_append.mp hc).elim (hcounts c) (h.counts c)

private theorem bounded_nil {within : Bool} : Bounded ⟨within, n, [], []⟩ := ⟨nofun, nofun⟩

/-- The walk of a value does as it should when it begins inside the limits or just past them. -/
def Walks (x : Sexp) : Prop :=
  ∀ d n : UInt32, d.toNat ≤ 65 → n.toNat ≤ 1024 →
    Measures (evalTreeWithinBudget x d n) d.toNat n.toNat (height x) (weight x) ∧
      Bounded (evalTreeWithinBudget x d n)

/-- The walk of one value and, if that stays within the limits, of the rest. -/
private theorem walks_then {rest : UInt32 → Walk} {restHeight restWeight : ℕ} (hx : Walks x)
    (hd : d.toNat ≤ 64) (hn : n.toNat ≤ 1024)
    (hrest : ∀ n : UInt32, n.toNat ≤ 1024 →
      Measures (rest n) d.toNat n.toNat restHeight restWeight ∧ Bounded (rest n))
    (hw : evalTreeWithinBudget x (d + 1) n = w) :
    Measures (if w.within then .after w.depths w.counts (rest w.nodes) else w) d.toNat n.toNat
        (max (1 + height x) restHeight) (weight x + restWeight) ∧
      Bounded (if w.within then .after w.depths w.counts (rest w.nodes) else w) := by
  have hd₁ : (d + 1).toNat = d.toNat + 1 := toNat_succ (by omega)
  obtain ⟨⟨hwithin, hnodes⟩, hbounded⟩ := hx (d + 1) n (by omega) hn
  rw [hw] at hwithin hnodes hbounded
  rw [hd₁] at hwithin
  by_cases hfirst : w.within = true
  · rw [if_pos hfirst]
    have hcount := hnodes hfirst
    obtain ⟨hdepth, hweight⟩ := hwithin.mp hfirst
    obtain ⟨⟨hwithin', hnodes'⟩, hbounded'⟩ := hrest w.nodes (by omega)
    refine ⟨⟨hwithin'.trans ?_, fun h => (hnodes' h).trans (by omega)⟩,
      hbounded'.after hbounded.depths hbounded.counts⟩
    omega
  · rw [if_neg hfirst]
    refine ⟨⟨⟨fun h => absurd h hfirst, fun h => ?_⟩, fun h => absurd h hfirst⟩, hbounded⟩
    exact hwithin.mpr ⟨by omega, by omega⟩

private theorem cellsWithinBudget_spec {cars : List Sexp} (h : ∀ x ∈ cars, Walks x)
    (hd : d.toNat ≤ 64) (hn : n.toNat ≤ 1024) :
    Measures (cellsWithinBudget cars d n) d.toNat n.toNat (innerHeight cars) (cellsWeight cars) ∧
      Bounded (cellsWithinBudget cars d n) := by
  induction cars generalizing n with
  | nil =>
    rw [cellsWithinBudget, innerHeight, cellsWeight]
    exact ⟨⟨by simpa using ⟨hd, hn⟩, fun _ => rfl⟩, bounded_nil⟩
  | cons car cdr ih =>
    obtain ⟨hcar, hcdr⟩ := List.forall_mem_cons.mp h
    have hn₁ : (n + 1).toNat = n.toNat + 1 := toNat_succ (by omega)
    have hcount : ∀ c ∈ [n + 1], c.toNat ≤ 1025 := List.forall_mem_singleton.mpr (by omega)
    rw [cellsWithinBudget, innerHeight, cellsWeight]
    by_cases hlimit : n + 1 > fuzzMaxNodes
    · rw [if_pos hlimit]
      rw [gt_fuzzMaxNodes_iff] at hlimit
      exact ⟨⟨⟨nofun, fun _ => by omega⟩, nofun⟩, ⟨nofun, hcount⟩⟩
    · rw [if_neg hlimit]
      rw [gt_fuzzMaxNodes_iff] at hlimit
      obtain ⟨⟨hwithin, hnodes⟩, hbounded⟩ :=
        walks_then hcar hd (by omega) (fun n hn => ih hcdr hn) (n := n + 1) rfl
      rw [hn₁] at hwithin hnodes
      refine ⟨⟨hwithin.trans ?_, fun hw => (hnodes hw).trans (by omega)⟩,
        hbounded.after nofun hcount⟩
      omega

private theorem elementsWithinBudget_spec {elements : List Sexp} (h : ∀ x ∈ elements, Walks x)
    (hd : d.toNat ≤ 64) (hn : n.toNat ≤ 1024) :
    Measures (elementsWithinBudget elements d n) d.toNat n.toNat (innerHeight elements)
        (elementsWeight elements) ∧
      Bounded (elementsWithinBudget elements d n) := by
  induction elements generalizing n with
  | nil =>
    rw [elementsWithinBudget, innerHeight, elementsWeight]
    exact ⟨⟨by simpa using ⟨hd, hn⟩, fun _ => rfl⟩, bounded_nil⟩
  | cons x rest ih =>
    obtain ⟨hx, hrest⟩ := List.forall_mem_cons.mp h
    rw [elementsWithinBudget, innerHeight, elementsWeight]
    exact walks_then hx hd hn (fun n hn => ih hrest hn) rfl

/-- A call past a limit ends at once. -/
private theorem evalTreeWithinBudget_past (h : 64 < d.toNat ∨ 1024 < (n + 1).toNat) :
    (evalTreeWithinBudget x d n).within = false := by
  unfold evalTreeWithinBudget
  by_cases hdepth : d > fuzzMaxDepth
  · rw [if_pos hdepth]
  · rw [if_neg hdepth, if_pos (gt_fuzzMaxNodes_iff.mpr (h.resolve_left hdepth))]

/-- A value with this walk inside it. -/
private theorem walks_of_inner (inner : UInt32 → UInt32 → Walk) (innerHeight innerWeight : ℕ)
    (hwalk : ∀ d n, evalTreeWithinBudget x d n =
      if d > fuzzMaxDepth then ⟨false, n, [d], []⟩
      else if n + 1 > fuzzMaxNodes then ⟨false, n + 1, [d], [n + 1]⟩
      else .after [d] [n + 1] (inner d (n + 1)))
    (hheight : height x = innerHeight) (hweight : weight x = 1 + innerWeight)
    (hinner : ∀ d n : UInt32, d.toNat ≤ 64 → n.toNat ≤ 1024 →
      Measures (inner d n) d.toNat n.toNat innerHeight innerWeight ∧ Bounded (inner d n)) :
    Walks x := by
  intro d n hd hn
  have hn₁ : (n + 1).toNat = n.toNat + 1 := toNat_succ (by omega)
  have hdepth : ∀ e ∈ [d], e.toNat ≤ 65 := List.forall_mem_singleton.mpr hd
  have hcount : ∀ c ∈ [n + 1], c.toNat ≤ 1025 := List.forall_mem_singleton.mpr (by omega)
  rw [hwalk, hheight, hweight]
  by_cases hpast : d > fuzzMaxDepth
  · rw [if_pos hpast]
    rw [gt_fuzzMaxDepth_iff] at hpast
    exact ⟨⟨⟨nofun, fun _ => by omega⟩, nofun⟩, ⟨hdepth, nofun⟩⟩
  rw [if_neg hpast]
  rw [gt_fuzzMaxDepth_iff] at hpast
  by_cases hfull : n + 1 > fuzzMaxNodes
  · rw [if_pos hfull]
    rw [gt_fuzzMaxNodes_iff] at hfull
    exact ⟨⟨⟨nofun, fun _ => by omega⟩, nofun⟩, ⟨hdepth, hcount⟩⟩
  rw [if_neg hfull]
  rw [gt_fuzzMaxNodes_iff] at hfull
  obtain ⟨⟨hwithin, hnodes⟩, hbounded⟩ := hinner d (n + 1) (by omega) (by omega)
  rw [hn₁] at hwithin hnodes
  refine ⟨⟨hwithin.trans ?_, fun hw => (hnodes hw).trans (Nat.add_assoc _ _ _)⟩,
    hbounded.after hdepth hcount⟩
  omega

theorem walks (x : Sexp) : Walks x := by
  induction x using Sexp.induct with
  | langsxp cars h =>
    exact walks_of_inner (cellsWithinBudget cars) _ _ (fun d n => by rw [evalTreeWithinBudget])
      (by rw [height]) (by rw [weight]) fun d n => cellsWithinBudget_spec h
  | listsxp cars h =>
    exact walks_of_inner (cellsWithinBudget cars) _ _ (fun d n => by rw [evalTreeWithinBudget])
      (by rw [height]) (by rw [weight]) fun d n => cellsWithinBudget_spec h
  | exprsxp elements h =>
    exact walks_of_inner (elementsWithinBudget elements) _ _
      (fun d n => by rw [evalTreeWithinBudget]) (by rw [height]) (by rw [weight])
      fun d n => elementsWithinBudget_spec h
  | other =>
    refine walks_of_inner (fun d n => ⟨true, n, [], []⟩) 0 0
      (fun d n => by rw [evalTreeWithinBudget]) (by rw [height]) (by rw [weight])
      fun d n hd hn => ⟨⟨?_, fun _ => rfl⟩, bounded_nil⟩
    simpa using ⟨hd, hn⟩

private theorem weight_pos (x : Sexp) : 0 < weight x := by
  cases x <;> rw [weight] <;> omega

/-- The limits on depth and count are exact, for every count that can be incremented; and the
walk of any value does not go further past them than by one. -/
theorem evalTreeWithinBudget_iff (x : Sexp) (d n₀ : UInt32) :
    (n₀ ≠ 0xffffffff →
      ((evalTreeWithinBudget x d n₀).within = true ↔
        d.toNat + height x ≤ 64 ∧ n₀.toNat + weight x ≤ 1024) ∧
      ((evalTreeWithinBudget x d n₀).within = true →
        (evalTreeWithinBudget x d n₀).nodes.toNat = n₀.toNat + weight x)) ∧
    (n₀.toNat ≤ 1024 → d.toNat ≤ 65 →
      (∀ c ∈ (evalTreeWithinBudget x d n₀).counts, c.toNat ≤ 1025) ∧
      ∀ e ∈ (evalTreeWithinBudget x d n₀).depths, e.toNat ≤ 65) := by
  constructor
  · intro hmax
    have hlt : n₀.toNat < 0xffffffff := by
      have hle := n₀.toNat_lt
      have hne : n₀.toNat ≠ 0xffffffff := fun h => hmax (UInt32.toNat_inj.mp h)
      omega
    by_cases hstart : d.toNat ≤ 64 ∧ n₀.toNat ≤ 1024
    · obtain ⟨⟨hwithin, hnodes⟩, -⟩ := walks x d n₀ (by omega) hstart.2
      exact ⟨hwithin, hnodes⟩
    · have hpast := evalTreeWithinBudget_past (x := x) (d := d) (n := n₀)
        (by rw [toNat_succ hlt]; omega)
      have := weight_pos x
      rw [hpast]
      exact ⟨⟨nofun, fun h => by omega⟩, nofun⟩
  · intro hn hd
    obtain ⟨-, hdepths, hcounts⟩ := walks x d n₀ hd hn
    exact ⟨hcounts, hdepths⟩

/-- A call with one argument, itself a pairlist of one cell. -/
theorem evalTreeWithinBudget_iff_call :
    (evalTreeWithinBudget (.langsxp [.other, .listsxp [.other]]) 0 0).nodes.toNat = 7 :=
  ((evalTreeWithinBudget_iff (.langsxp [.other, .listsxp [.other]]) 0 0).1 (by decide)).2
    (by decide)

/-- From the greatest `unsigned` the count wraps to 0. -/
theorem evalTreeWithinBudget_wraps :
    ¬ ((evalTreeWithinBudget .other 0 0xffffffff).within = true ↔
      (0 : UInt32).toNat + height .other ≤ 64 ∧
        (0xffffffff : UInt32).toNat + weight .other ≤ 1024) := by
  decide

end ROssFuzz.TreeBudget
