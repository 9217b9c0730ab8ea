import Mathlib.Data.List.Perm.Basic
import Mathlib.Data.List.Nodup

/-!
# Accounting for resources

What has been acquired, what has been released and what is still held. Accounts are kept
through a run: what is acquired is new, and what is released was held, so that nothing is
released twice or while somebody holds it, and once nothing is held everything has been
released exactly once.

A trace says in which order resources are acquired, used and released. It is lawful when
every use and every release is of a resource that is held at that point.
-/

namespace ROssFuzz.Resources

variable {ι : Type*}

/-- Everything acquired has been released or is held, and not both. -/
structure Accounted (acquired released held : List ι) : Prop where
  fresh : acquired.Nodup
  split : (released ++ held).Perm acquired

namespace Accounted

variable {acquired released held held' : List ι} {p : ι}

theorem init : Accounted ([] : List ι) [] [] := ⟨List.nodup_nil, .nil⟩

theorem rearrange (h : Accounted acquired released held) (hperm : held'.Perm held) :
    Accounted acquired released held' :=
  ⟨h.fresh, (hperm.append_left released).trans h.split⟩

theorem acquire (h : Accounted acquired released held) (hp : p ∉ acquired)
    (hperm : held'.Perm (p :: held)) : Accounted (acquired ++ [p]) released held' := by
  constructor
  · rw [List.nodup_append]
    refine ⟨h.fresh, List.nodup_singleton p, fun x hx y hy => ?_⟩
    rw [List.mem_singleton.mp hy]
    rintro rfl
    exact hp hx
  · have hmiddle : (released ++ held').Perm (p :: (released ++ held)) :=
      (hperm.append_left released).trans List.perm_middle
    have hlast : (p :: acquired).Perm (acquired ++ [p]) :=
      (List.perm_append_singleton p acquired).symm
    exact hmiddle.trans ((h.split.cons p).trans hlast)

theorem release (h : Accounted acquired released held) (hperm : held.Perm (p :: held')) :
    Accounted acquired (released ++ [p]) held' := by
  refine ⟨h.fresh, ?_⟩
  rw [List.append_assoc]
  exact (hperm.symm.append_left released).trans h.split

theorem nodup (h : Accounted acquired released held) : (released ++ held).Nodup :=
  h.split.nodup_iff.mpr h.fresh

theorem released_nodup (h : Accounted acquired released held) : released.Nodup :=
  (List.nodup_append.mp h.nodup).1

theorem held_nodup (h : Accounted acquired released held) : held.Nodup :=
  (List.nodup_append.mp h.nodup).2.1

theorem not_held (h : Accounted acquired released held) (hp : p ∈ released) : p ∉ held :=
  fun hheld => (List.nodup_append.mp h.nodup).2.2 p hp p hheld rfl

theorem mem_acquired (h : Accounted acquired released held) :
    p ∈ acquired ↔ p ∈ released ∨ p ∈ held := by
  rw [← h.split.mem_iff, List.mem_append]

/-- What has been acquired and is not held has been released exactly once. -/
theorem count_released_eq_one [DecidableEq ι] (h : Accounted acquired released held) :
    released.count p = 1 ↔ p ∈ acquired ∧ p ∉ held := by
  rw [h.mem_acquired]
  constructor
  · intro hcount
    have hp : p ∈ released := List.count_pos_iff.mp (by omega)
    exact ⟨.inl hp, h.not_held hp⟩
  · rintro ⟨hp, hheld⟩
    exact List.count_eq_one_of_mem h.released_nodup (hp.resolve_right hheld)

end Accounted

/-! ### Traces -/

inductive Event (ι : Type*)
  | acquire (p : ι)
  | use (p : ι)
  | release (p : ι)
  deriving DecidableEq

def acquired (es : List (Event ι)) : List ι :=
  es.filterMap fun e => match e with
    | .acquire p => some p
    | _ => none

def released (es : List (Event ι)) : List ι :=
  es.filterMap fun e => match e with
    | .release p => some p
    | _ => none

@[simp] theorem acquired_append (es fs : List (Event ι)) :
    acquired (es ++ fs) = acquired es ++ acquired fs := List.filterMap_append

/-- Everything acquired is released exactly once, and what is used or released has been
acquired and not yet released. -/
def FreedOnce [DecidableEq ι] (es : List (Event ι)) : Prop :=
  (∀ p ∈ acquired es, (released es).count p = 1) ∧
  ∀ before e after p, es = before ++ e :: after → e = .use p ∨ e = .release p →
    p ∈ acquired before ∧ p ∉ released before

/-- As `FreedOnce`, but `p` may be left. -/
def FreedBut [DecidableEq ι] (p : ι) (es : List (Event ι)) : Prop :=
  (∀ q ∈ acquired es, q ≠ p → (released es).count q = 1) ∧
  ∀ before e after q, es = before ++ e :: after → e = .use q ∨ e = .release q →
    q ∈ acquired before ∧ q ∉ released before

/-- A trace from what is held at its beginning to what is held at its end. -/
inductive Lawful : List ι → List (Event ι) → List ι → Prop
  | nil {held held'} (hperm : held'.Perm held) : Lawful held [] held'
  | acquire {held es held' p} (tail : Lawful (p :: held) es held') :
      Lawful held (.acquire p :: es) held'
  | use {held es held' p} (hp : p ∈ held) (tail : Lawful held es held') :
      Lawful held (.use p :: es) held'
  | release {held held₁ es held' p} (hperm : held.Perm (p :: held₁))
      (tail : Lawful held₁ es held') : Lawful held (.release p :: es) held'

namespace Lawful

variable {held₁ held₂ : List ι} {es fs : List (Event ι)}

theorem of_perm (h : Lawful held es held') (hperm : held₁.Perm held) :
    Lawful held₁ es held' := by
  induction h generalizing held₁ with
  | nil hp => exact .nil (hp.trans hperm.symm)
  | acquire _ ih => exact .acquire (ih (hperm.cons _))
  | use hp _ ih => exact .use (hperm.mem_iff.mpr hp) (ih hperm)
  | release hp tail _ => exact .release (hperm.trans hp) tail

theorem append (h : Lawful held es held₁) (h' : Lawful held₁ fs held₂) :
    Lawful held (es ++ fs) held₂ := by
  induction h with
  | nil hperm => exact h'.of_perm hperm.symm
  | acquire _ ih => exact .acquire (ih h')
  | use hp _ ih => exact .use hp (ih h')
  | release hperm _ ih => exact .release hperm (ih h')

theorem to_perm (h : Lawful held es held') (hperm : held₁.Perm held') :
    Lawful held es held₁ := by
  simpa using h.append (.nil hperm)

theorem uses {ps : List ι} (h : ∀ p ∈ ps, p ∈ held) : Lawful held (ps.map .use) held := by
  induction ps with
  | nil => exact .nil (.refl _)
  | cons p ps ih =>
    exact .use (h p List.mem_cons_self) (ih fun q hq => h q (List.mem_cons_of_mem p hq))

theorem releases {ps : List ι} (h : held.Perm (ps ++ held')) :
    Lawful held (ps.map .release) held' := by
  induction ps generalizing held with
  | nil => exact .nil h.symm
  | cons p ps ih => exact .release h (ih (.refl _))

/-- A lawful trace of which nothing is acquired twice keeps the accounts. -/
theorem accounted {before released₀ : List ι} (h : Lawful held es held')
    (h₀ : Accounted before released₀ held) (hfresh : (before ++ acquired es).Nodup) :
    Accounted (before ++ acquired es) (released₀ ++ released es) held' := by
  induction h generalizing before released₀ with
  | nil hperm => simpa [acquired, released] using h₀.rearrange hperm
  | @acquire held es held' p tail ih =>
    have hsplit : before ++ acquired (.acquire p :: es) = before ++ [p] ++ acquired es := by
      simp [acquired]
    rw [hsplit] at hfresh ⊢
    have hnew : p ∉ before := fun hmem => by
      rw [List.append_assoc] at hfresh
      exact (List.nodup_append.mp hfresh).2.2 p hmem p (by simp) rfl
    exact ih (h₀.acquire hnew (.refl _)) hfresh
  | use _ _ ih => exact ih h₀ hfresh
  | @release held held₁ es held' p hperm _ ih =>
    have hsplit : released₀ ++ released (.release p :: es) = released₀ ++ [p] ++ released es := by
      simp [released]
    rw [hsplit]
    exact ih (h₀.release hperm) hfresh

theorem split {e : Event ι} (h : Lawful held (es ++ e :: fs) held') :
    ∃ held₁, Lawful held es held₁ ∧ Lawful held₁ (e :: fs) held' := by
  induction es generalizing held with
  | nil => exact ⟨held, .nil (.refl _), h⟩
  | cons x es ih =>
    cases h with
    | acquire tail =>
      obtain ⟨held₁, hes, hfs⟩ := ih tail
      exact ⟨held₁, .acquire hes, hfs⟩
    | use hp tail =>
      obtain ⟨held₁, hes, hfs⟩ := ih tail
      exact ⟨held₁, .use hp hes, hfs⟩
    | release hperm tail =>
      obtain ⟨held₁, hes, hfs⟩ := ih tail
      exact ⟨held₁, .release hperm hes, hfs⟩

/-- What is used or released in a lawful trace that begins with nothing is held then. -/
theorem held_when (h : Lawful [] es held) (hfresh : (acquired es).Nodup) (before : List (Event ι))
    (e : Event ι) (after : List (Event ι)) (p : ι) (hes : es = before ++ e :: after)
    (he : e = .use p ∨ e = .release p) : p ∈ acquired before ∧ p ∉ released before := by
  subst hes
  rw [acquired_append, List.nodup_append] at hfresh
  obtain ⟨held₁, hbefore, htail⟩ := h.split
  have hthen := hbefore.accounted .init hfresh.1
  have hp : p ∈ held₁ := by
    rcases he with rfl | rfl
    · cases htail with
      | use hp _ => exact hp
    · cases htail with
      | release hperm _ => exact hperm.mem_iff.mpr List.mem_cons_self
  exact ⟨hthen.mem_acquired.mpr (.inr hp), fun hmem => hthen.not_held hmem hp⟩

variable [DecidableEq ι]

/-- A lawful trace that begins with nothing frees everything once when it ends with
nothing. -/
theorem freedOnce_iff (h : Lawful [] es held) (hfresh : (acquired es).Nodup) :
    FreedOnce es ↔ held = [] := by
  have haccounted := h.accounted .init hfresh
  rw [FreedOnce, and_iff_left (h.held_when hfresh), List.eq_nil_iff_forall_not_mem]
  refine forall_congr' fun p => ⟨fun hcount hp => ?_, fun hp hacquired => ?_⟩
  · have hone := hcount (haccounted.mem_acquired.mpr (.inr hp))
    exact (haccounted.count_released_eq_one.mp hone).2 hp
  · exact haccounted.count_released_eq_one.mpr ⟨hacquired, hp⟩

theorem freedBut_iff {p : ι} (h : Lawful [] es held) (hfresh : (acquired es).Nodup) :
    FreedBut p es ↔ ∀ q ∈ held, q = p := by
  have haccounted := h.accounted .init hfresh
  rw [FreedBut, and_iff_left (h.held_when hfresh)]
  refine forall_congr' fun q => ⟨fun hcount hq => ?_, fun hq hacquired hne => ?_⟩
  · by_contra hne
    have hone := hcount (haccounted.mem_acquired.mpr (.inr hq)) hne
    exact (haccounted.count_released_eq_one.mp hone).2 hq
  · exact haccounted.count_released_eq_one.mpr ⟨hacquired, fun hheld => hne (hq hheld)⟩

end Lawful
end ROssFuzz.Resources
