import ROssFuzz.OwnedCode
import Mathlib.Logic.Function.Basic

/-!
# Variables that own what they point to

C code that keeps its resources in pointers. As long as each resource that is held is pointed to
by one variable, and each pointer is NULL or points to a resource that is held, what leaks is
what a variable still points to at the end. Triples speak of the variables alone.
-/

namespace ROssFuzz.OwnedCode
open Resources

variable {ν ρ α β : Type}

/-- Pointers by their names, and the other variables. -/
structure Locals (ν ρ : Type) where
  ptr : ν → ℕ
  rest : ρ

/-- Every resource that is held has one owner. -/
structure Owner (ptr : ν → ℕ) (held : Finset ℕ) : Prop where
  covers : ∀ p, p ∈ held ↔ p ≠ 0 ∧ ∃ x, ptr x = p
  injective : ∀ x y, ptr x = ptr y → ptr x ≠ 0 → x = y

namespace Owner

variable {ptr : ν → ℕ} {held : Finset ℕ}

theorem init : Owner (fun _ : ν => 0) ∅ :=
  ⟨fun p => by simp +contextual [eq_comm], fun _ _ _ h => absurd rfl h⟩

theorem eq_empty_iff (h : Owner ptr held) : held = ∅ ↔ ∀ x, ptr x = 0 := by
  simp only [Finset.eq_empty_iff_forall_notMem, h.covers]
  exact ⟨fun hall x => by_contra fun hx => hall _ ⟨hx, x, rfl⟩, fun hall p ⟨hp, x, hx⟩ =>
    hp (hx ▸ hall x)⟩

theorem mem {x : ν} (h : Owner ptr held) (hx : ptr x ≠ 0) : ptr x ∈ held :=
  (h.covers _).mpr ⟨hx, x, rfl⟩

variable [DecidableEq ν] {x : ν} {p : ℕ}

theorem acquire (h : Owner ptr held) (hx : ptr x = 0) (hp : p ∉ held) (hnull : p ≠ 0) :
    Owner (Function.update ptr x p) (insert p held) := by
  have hnew : ∀ y, ptr y ≠ p := fun y hy => hp ((h.covers p).mpr ⟨hnull, y, hy⟩)
  constructor
  · intro q
    rw [Finset.mem_insert, h.covers]
    constructor
    · rintro (rfl | ⟨hq, y, hy⟩)
      · exact ⟨hnull, x, Function.update_self x q ptr⟩
      · refine ⟨hq, y, ?_⟩
        rw [Function.update_of_ne (fun hyx => hq (by rw [← hy, hyx, hx])), hy]
    · rintro ⟨hq, y, hy⟩
      by_cases hyx : y = x
      · exact .inl (by rw [← hy, hyx, Function.update_self])
      · exact .inr ⟨hq, y, by rwa [Function.update_of_ne hyx] at hy⟩
  · intro y z hyz hy
    by_cases hyx : y = x <;> by_cases hzx : z = x
    · rw [hyx, hzx]
    · rw [hyx, Function.update_self, Function.update_of_ne hzx] at hyz
      exact absurd hyz.symm (hnew z)
    · rw [hzx, Function.update_self, Function.update_of_ne hyx] at hyz
      exact absurd hyz (hnew y)
    · rw [Function.update_of_ne hyx, Function.update_of_ne hzx] at hyz
      rw [Function.update_of_ne hyx] at hy
      exact h.injective y z hyz hy

theorem release (h : Owner ptr held) (x : ν) :
    Owner (Function.update ptr x 0) (held.erase (ptr x)) := by
  constructor
  · intro q
    rw [Finset.mem_erase, h.covers]
    constructor
    · rintro ⟨hqx, hq, y, hy⟩
      exact ⟨hq, y, by rw [Function.update_of_ne (fun hyx => hqx (by rw [← hy, hyx])), hy]⟩
    · rintro ⟨hq, y, hy⟩
      have hyx : y ≠ x := fun hyx => hq (by rw [← hy, hyx, Function.update_self])
      rw [Function.update_of_ne hyx] at hy
      exact ⟨fun hqx => hyx (h.injective y x (hy.trans hqx) (hy ▸ hq)), hq, y, hy⟩
  · intro y z hyz hy
    by_cases hyx : y = x
    · rw [hyx, Function.update_self] at hy
      exact absurd rfl hy
    · rw [Function.update_of_ne hyx] at hyz hy
      by_cases hzx : z = x
      · rw [hzx, Function.update_self] at hyz
        exact absurd hyz hy
      · exact h.injective y z (by rwa [Function.update_of_ne hzx] at hyz) hy

end Owner

namespace Code

/-- A use of what `x` points to. -/
def touch (x : ν) : Code (Locals ν ρ) Unit := do use ((← get).ptr x)

def setRest (f : ρ → ρ) : Code (Locals ν ρ) Unit := modify fun s => { s with rest := f s.rest }

section
variable [DecidableEq ν]

def setPtr (x : ν) (p : ℕ) (s : Locals ν ρ) : Locals ν ρ := { s with ptr := Function.update s.ptr x p }

/-- `x = malloc(..)`, or what else returns something new. -/
def assign (x : ν) : Code (Locals ν ρ) Unit := do modify (setPtr x (← malloc))

/-- `if(x) { free(x); x = NULL; }` -/
def release (x : ν) : Code (Locals ν ρ) Unit := do
  let s ← get
  if s.ptr x ≠ 0 then
    free (s.ptr x)
    modify (setPtr x 0)

end

/-- From a state with `pre` in which the variables own what is held, the code ends with `post`
in one in which they do. -/
def Triple (pre : Locals ν ρ → Prop) (code : Code (Locals ν ρ) α)
    (post : Option α → Locals ν ρ → Prop) : Prop :=
  ∀ s held, pre s → Owner s.ptr held →
    code.wp (fun r s held => Owner s.ptr held ∧ post r s) s held

namespace Triple

variable {pre pre' : Locals ν ρ → Prop} {code : Code (Locals ν ρ) α}
  {post post' : Option α → Locals ν ρ → Prop}

theorem mono (h : Triple pre code post) (hpre : ∀ s, pre' s → pre s)
    (hpost : ∀ r s, post r s → post' r s) : Triple pre' code post' := fun s held hs howner =>
  wp_mono (fun r s _ hr => ⟨hr.1, hpost r s hr.2⟩) (h s held (hpre s hs) howner)

/-- State by state. -/
theorem of_forall (h : ∀ t, pre t → Triple (fun s => s = t) code post) : Triple pre code post :=
  fun s held hs howner => h s hs s held rfl howner

theorem exfalso : Triple (fun _ => False) code post := fun _ _ h => h.elim

theorem pure {a : α} (h : ∀ s, pre s → post (some a) s) :
    Triple pre (Pure.pure a : Code (Locals ν ρ) α) post :=
  fun s _ hs howner => (wp_pure a).mpr ⟨howner, h s hs⟩

theorem raise (h : ∀ s, pre s → post none s) : Triple pre (Code.raise : Code (Locals ν ρ) α) post :=
  fun s _ hs howner => wp_raise.mpr ⟨howner, h s hs⟩

theorem bind {x : Code (Locals ν ρ) β} {f : β → Code (Locals ν ρ) α}
    (mid : β → Locals ν ρ → Prop)
    (hx : Triple pre x fun r s => match r with
      | some b => mid b s
      | none => post none s)
    (hf : ∀ b, Triple (mid b) (f b) post) : Triple pre (x >>= f) post := by
  intro s held hs howner
  rw [wp_bind]
  refine wp_mono (fun r s held hr => ?_) (hx s held hs howner)
  cases r with
  | none => exact hr
  | some b => exact hf b s held hr.2 hr.1

theorem get_bind {f : Locals ν ρ → Code (Locals ν ρ) α}
    (h : ∀ t, pre t → Triple (fun s => s = t) (f t) post) : Triple pre (get >>= f) post :=
  fun s held hs howner => (wp_bind _ _).mpr (wp_get.mpr (h s hs s held rfl howner))

theorem ask_bind {f : Bool → Code (Locals ν ρ) α} (h : ∀ b, Triple pre (f b) post) :
    Triple pre (ask >>= f) post :=
  fun s held hs howner => (wp_bind _ _).mpr (wp_ask.mpr fun b => h b s held hs howner)

theorem ite {c : Prop} [Decidable c] {x y : Code (Locals ν ρ) α} (hx : c → Triple pre x post)
    (hy : ¬ c → Triple pre y post) : Triple pre (if c then x else y) post := by
  split
  next hc => exact hx hc
  next hc => exact hy hc

theorem cleanedUp {cleanup : Code (Locals ν ρ) Unit} (unwinding : Locals ν ρ → Prop)
    (hbody : Triple pre code fun r s => match r with
      | some a => post (some a) s
      | none => unwinding s)
    (hcleanup : Triple unwinding cleanup fun _ s => post none s) :
    Triple pre (Code.cleanedUp code cleanup) post := by
  intro s held hs howner
  rw [wp_cleanedUp]
  refine wp_mono (fun r s held hr => ?_) (hbody s held hs howner)
  cases r with
  | some a => exact hr
  | none => exact hcleanup s held hr.2 hr.1

section
variable {post : Option Unit → Locals ν ρ → Prop}

theorem setRest {f : ρ → ρ} (h : ∀ s, pre s → post (some ()) { s with rest := f s.rest }) :
    Triple pre (Code.setRest f : Code (Locals ν ρ) Unit) post :=
  fun s _ hs howner => (wp_modify _).mpr ⟨howner, h s hs⟩

theorem mayRaise (hnone : ∀ s, pre s → post none s) (hsome : ∀ s, pre s → post (some ()) s) :
    Triple pre (Code.mayRaise : Code (Locals ν ρ) Unit) post :=
  fun s _ hs howner => wp_mayRaise.mpr ⟨⟨howner, hnone s hs⟩, ⟨howner, hsome s hs⟩⟩

theorem touch {x : ν} (hptr : ∀ s, pre s → s.ptr x ≠ 0) (h : ∀ s, pre s → post (some ()) s) :
    Triple pre (Code.touch x : Code (Locals ν ρ) Unit) post := by
  intro s held hs howner
  rw [Code.touch, wp_bind, wp_get]
  exact ⟨howner.mem (hptr s hs), howner, h s hs⟩

theorem forEach {f : β → Code (Locals ν ρ) Unit} {xs : List β} (inv : Locals ν ρ → Prop)
    (hround : ∀ x ∈ xs, Triple inv (f x) fun r s => match r with
      | some () => inv s
      | none => post none s)
    (hpre : ∀ s, pre s → inv s) (hend : ∀ s, inv s → post (some ()) s) :
    Triple pre (Code.forEach f xs) post := by
  intro s held hs howner
  refine wp_forEach (fun s held => Owner s.ptr held ∧ inv s) (fun x hx s held h => ?_)
    (fun s held h => ⟨h.1, hend s h.2⟩) ⟨howner, hpre s hs⟩
  refine wp_mono (fun r s held hr => ?_) (hround x hx s held h.2 h.1)
  cases r <;> exact hr

variable [DecidableEq ν]

theorem assign {x : ν} (hnull : ∀ s, pre s → s.ptr x = 0)
    (h : ∀ s p, pre s → p ≠ 0 → post (some ()) (setPtr x p s)) :
    Triple pre (Code.assign x) post := by
  intro s held hs howner
  rw [Code.assign, wp_bind, wp_malloc]
  exact fun p hp hp0 => ⟨howner.acquire (hnull s hs) hp hp0, h s p hs hp0⟩

theorem release {x : ν} (h : ∀ s, pre s → post (some ()) (setPtr x 0 s)) :
    Triple pre (Code.release x : Code (Locals ν ρ) Unit) post := by
  intro s held hs howner
  have hpost := h s hs
  rw [Code.release, wp_bind, wp_get]
  by_cases hx : s.ptr x = 0
  · have hsame : setPtr x 0 s = s := by rw [setPtr, ← hx, Function.update_eq_self]
    simp only [hx, ne_eq, not_true_eq_false, ↓reduceIte]
    rw [hsame] at hpost
    exact ⟨howner, hpost⟩
  · simp only [hx, ne_eq, not_false_eq_true, ↓reduceIte]
    exact ⟨howner.mem hx, howner.release x, hpost⟩

end

section Runs
variable {s : Locals ν ρ} {good : Option α → Prop}

/-- A run from a state in which no variable points to anything. -/
theorem run (h : Triple (fun t => t = s) code post) (hs : ∀ x, s.ptr x = 0) (answers : List Bool) :
    ∃ names, Lawful [] (code.trace s answers).1 names ∧ (acquired (code.trace s answers).1).Nodup ∧
      Owner (code.final s answers).ptr names.toFinset ∧
      post (code.trace s answers).2 (code.final s answers) := by
  refine wp_trace (h s ∅ rfl ?_) answers
  have hnull : s.ptr = fun _ => 0 := funext hs
  rw [hnull]
  exact .init

/-- What leaks is what the variables still point to. -/
theorem freedOnce_iff (h : Triple (fun t => t = s) code fun r s => (∀ x, s.ptr x = 0) ↔ good r)
    (hs : ∀ x, s.ptr x = 0) (answers : List Bool) :
    FreedOnce (code.trace s answers).1 ↔ good (code.trace s answers).2 := by
  obtain ⟨names, hlawful, hacquired, howner, hgood⟩ := h.run hs answers
  rw [hlawful.freedOnce_iff hacquired, ← hgood, ← howner.eq_empty_iff, List.toFinset_eq_empty_iff]

/-- Nothing leaks but what `x` still points to. -/
theorem freedBut_iff {x : ν}
    (h : Triple (fun t => t = s) code fun r s => (∀ y, y ≠ x → s.ptr y = 0) ↔ good r)
    (hs : ∀ x, s.ptr x = 0) (answers : List Bool) :
    FreedBut ((code.final s answers).ptr x) (code.trace s answers).1 ↔
      good (code.trace s answers).2 := by
  obtain ⟨names, hlawful, hacquired, howner, hgood⟩ := h.run hs answers
  rw [hlawful.freedBut_iff hacquired, ← hgood]
  constructor
  · intro hall y hyx
    by_contra hy
    have hmem := hall _ (List.mem_toFinset.mp (howner.mem hy))
    exact hyx (howner.injective y x hmem hy)
  · intro hall p hp
    obtain ⟨hp0, y, rfl⟩ := (howner.covers p).mp (List.mem_toFinset.mpr hp)
    by_contra hne
    exact hp0 (hall y fun hyx => hne (by rw [hyx]))

end Runs

end Triple
end Code
end ROssFuzz.OwnedCode
