import ROssFuzz.Resources
import Mathlib.Data.Finset.Dedup
import Mathlib.Data.Finset.Basic

/-!
# Code that owns resources

Code over a state that acquires, uses and releases resources, and that may raise an error: an
error leaves the state as it is and skips what follows, up to a cleanup. What the code does not
decide is asked for.

A resource is named by a number, with 0 for NULL. `wp` says that from what is held the code
uses and releases only what it holds, and where it can end. Its rules follow the code, and a run
of code that satisfies it is a lawful trace, in which every resource is new.
-/

namespace ROssFuzz.OwnedCode
open Resources

variable {α β σ τ : Type}

/-! ### Acts -/

inductive Act (α : Type)
  | done (a : α)
  | acquire (next : ℕ → Act α)
  | use (p : ℕ) (next : Act α)
  | release (p : ℕ) (next : Act α)
  | ask (next : Bool → Act α)

def Act.bind : Act α → (α → Act β) → Act β
  | .done a, f => f a
  | .acquire next, f => .acquire fun p => (next p).bind f
  | .use p next, f => .use p (next.bind f)
  | .release p next, f => .release p (next.bind f)
  | .ask next, f => .ask fun b => (next b).bind f

/-- What happens and what comes of it, with the answers to what is asked, and with resources
named from `n` on. -/
def Act.run : Act α → List Bool → ℕ → List (Event ℕ) × α
  | .done a, _, _ => ([], a)
  | .acquire next, answers, n =>
      let (es, a) := (next n).run answers (n + 1)
      (.acquire n :: es, a)
  | .use p next, answers, n =>
      let (es, a) := next.run answers n
      (.use p :: es, a)
  | .release p next, answers, n =>
      let (es, a) := next.run answers n
      (.release p :: es, a)
  | .ask next, answers, n => (next (answers.headD false)).run answers.tail n

def Act.wp (post : α → Finset ℕ → Prop) : Act α → Finset ℕ → Prop
  | .done a, held => post a held
  | .acquire next, held => ∀ p ∉ held, p ≠ 0 → (next p).wp post (insert p held)
  | .use p next, held => p ∈ held ∧ next.wp post held
  | .release p next, held => p ∈ held ∧ next.wp post (held.erase p)
  | .ask next, held => ∀ b, (next b).wp post held

variable {post post' : α → Finset ℕ → Prop} {held : Finset ℕ}

theorem Act.wp_bind (x : Act α) (f : α → Act β) (post : β → Finset ℕ → Prop) (held : Finset ℕ) :
    (x.bind f).wp post held ↔ x.wp (fun a held => (f a).wp post held) held := by
  induction x generalizing held with
  | done a => rfl
  | acquire next ih => exact forall₃_congr fun p _ _ => ih p _
  | use p next ih | release p next ih => exact and_congr_right fun _ => ih _
  | ask next ih => exact forall_congr' fun b => ih b _

theorem Act.wp_mono {x : Act α} (h : ∀ a held, post a held → post' a held) (hx : x.wp post held) :
    x.wp post' held := by
  induction x generalizing held with
  | done a => exact h a held hx
  | acquire next ih => exact fun p hp hnull => ih p (hx p hp hnull)
  | use p next ih | release p next ih => exact ⟨hx.1, ih hx.2⟩
  | ask next ih => exact fun b => ih b (hx b)

/-- The trace of a run is lawful, and no resource is acquired twice. -/
theorem Act.wp_run {x : Act α} {names : List ℕ} (hx : x.wp post names.toFinset)
    (hnodup : names.Nodup) (answers : List Bool) {n : ℕ} (hnull : 0 < n) (hn : ∀ p ∈ names, p < n) :
    ∃ names', Lawful names (x.run answers n).1 names' ∧ names'.Nodup ∧
      post (x.run answers n).2 names'.toFinset ∧
      (acquired (x.run answers n).1).Nodup ∧ ∀ p ∈ acquired (x.run answers n).1, n ≤ p := by
  induction x generalizing names answers n with
  | done a => exact ⟨names, .nil (.refl _), hnodup, hx, List.nodup_nil, by simp [run, acquired]⟩
  | acquire next ih =>
    have hnew : n ∉ names := fun hmem => (hn n hmem).false
    have hnext := hx n (by simpa using hnew) hnull.ne'
    rw [← List.toFinset_cons] at hnext
    obtain ⟨names', hlawful, hnodup', hpost, hacquired, hbound⟩ :=
      @ih n (n :: names) hnext (hnodup.cons hnew) answers (n + 1)
        n.succ_pos (by simpa using fun p hp => (hn p hp).trans (Nat.lt_succ_self n))
    refine ⟨names', .acquire hlawful, hnodup', hpost, ?_, ?_⟩
    · exact List.nodup_cons.mpr ⟨fun hmem => by have := hbound n hmem; omega, hacquired⟩
    · rintro p (_ | ⟨_, hp⟩)
      · exact le_rfl
      · exact (Nat.le_succ n).trans (hbound p hp)
  | use p next ih =>
    obtain ⟨names', hlawful, hrest⟩ := ih hx.2 hnodup answers hnull hn
    exact ⟨names', .use (List.mem_toFinset.mp hx.1) hlawful, hrest⟩
  | release p next ih =>
    have hp := List.mem_toFinset.mp hx.1
    have hnext : next.wp post (names.erase p).toFinset := by
      have herase : (names.erase p).toFinset = names.toFinset.erase p := by
        ext q
        simp [hnodup.mem_erase_iff]
      rw [herase]
      exact hx.2
    obtain ⟨names', hlawful, hrest⟩ := ih hnext (hnodup.erase p) answers hnull
      fun q hq => hn q (List.mem_of_mem_erase hq)
    exact ⟨names', .release (List.perm_cons_erase hp) hlawful, hrest⟩
  | ask next ih => exact ih (answers.headD false) (hx _) hnodup answers.tail hnull hn

/-! ### Code -/

/-- No value is an error. -/
def Code (σ α : Type) := σ → Act (Option α × σ)

namespace Code

instance : Monad (Code σ) where
  pure a := fun s => .done (some a, s)
  bind x f := fun s => (x s).bind fun (r, s) =>
    match r with
    | some a => f a s
    | none => .done (none, s)

def raise : Code σ α := fun s => .done (none, s)

def get : Code σ σ := fun s => .done (some s, s)

def modify (f : σ → σ) : Code σ Unit := fun s => .done (some (), f s)

def malloc : Code σ ℕ := fun s => .acquire fun p => .done (some p, s)

def use (p : ℕ) : Code σ Unit := fun s => .use p (.done (some (), s))

def free (p : ℕ) : Code σ Unit := fun s => .release p (.done (some (), s))

def ask : Code σ Bool := fun s => .ask fun b => .done (some b, s)

/-- Something that may raise, of which nothing else is seen. -/
def mayRaise : Code σ Unit := do if ← ask then raise

/-- A context around the body: when an error unwinds out of it, the cleanup runs on what the
state is by then. -/
def cleanedUp (body : Code σ α) (cleanup : Code σ Unit) : Code σ α := fun s =>
  (body s).bind fun (r, s) =>
    match r with
    | some a => .done (some a, s)
    | none => (cleanup s).bind fun (_, s) => .done (none, s)

/-- A function with locals of its own. -/
def call (locals : τ) (body : Code (σ × τ) α) : Code σ α := fun s =>
  (body (s, locals)).bind fun (r, s) => .done (r, s.1)

def forEach (f : β → Code σ Unit) : List β → Code σ Unit
  | [] => pure ()
  | x :: xs => do f x; forEach f xs

def wp (code : Code σ α) (post : Option α → σ → Finset ℕ → Prop) (s : σ) (held : Finset ℕ) : Prop :=
  (code s).wp (fun r => post r.1 r.2) held

section
variable {post : Option α → σ → Finset ℕ → Prop} {s : σ}

@[simp] theorem wp_pure (a : α) : (pure a : Code σ α).wp post s held ↔ post (some a) s held := .rfl

@[simp] theorem wp_bind (x : Code σ β) (f : β → Code σ α) : (x >>= f).wp post s held ↔
    x.wp (fun r s held => match r with
      | some b => (f b).wp post s held
      | none => post none s held) s held := by
  refine (Act.wp_bind _ _ _ _).trans ?_
  apply iff_of_eq
  rw [wp]
  congr 1
  funext r held
  obtain ⟨r, s⟩ := r
  cases r <;> rfl

@[simp] theorem wp_raise : (raise : Code σ α).wp post s held ↔ post none s held := .rfl

@[simp] theorem wp_cleanedUp (body : Code σ α) (cleanup : Code σ Unit) :
    (cleanedUp body cleanup).wp post s held ↔ body.wp (fun r s held => match r with
      | some a => post (some a) s held
      | none => cleanup.wp (fun _ s held => post none s held) s held) s held := by
  refine (Act.wp_bind _ _ _ _).trans ?_
  apply iff_of_eq
  rw [wp]
  congr 1
  funext r held
  obtain ⟨r, s⟩ := r
  cases r with
  | some a => rfl
  | none => exact propext (Act.wp_bind _ _ _ _)

@[simp] theorem wp_call (locals : τ) (body : Code (σ × τ) α) : (call locals body).wp post s held ↔
    body.wp (fun r s held => post r s.1 held) (s, locals) held := Act.wp_bind _ _ _ _

@[simp] theorem wp_ite (c : Prop) [Decidable c] (x y : Code σ α) :
    (if c then x else y).wp post s held ↔
      (c → x.wp post s held) ∧ (¬ c → y.wp post s held) := by
  split <;> simp_all

theorem wp_mono {code : Code σ α} {post' : Option α → σ → Finset ℕ → Prop}
    (h : ∀ r s held, post r s held → post' r s held) (hcode : code.wp post s held) :
    code.wp post' s held := Act.wp_mono (fun _ _ => h _ _ _) hcode

end

section
variable {s : σ}

@[simp] theorem wp_get {post : Option σ → σ → Finset ℕ → Prop} :
    (get : Code σ σ).wp post s held ↔ post (some s) s held := .rfl

@[simp] theorem wp_malloc {post : Option ℕ → σ → Finset ℕ → Prop} :
    (malloc : Code σ ℕ).wp post s held ↔
      ∀ p ∉ held, p ≠ 0 → post (some p) s (insert p held) := .rfl

@[simp] theorem wp_ask {post : Option Bool → σ → Finset ℕ → Prop} :
    (ask : Code σ Bool).wp post s held ↔ ∀ b, post (some b) s held := .rfl

variable {post : Option Unit → σ → Finset ℕ → Prop}

@[simp] theorem wp_modify (f : σ → σ) : (modify f).wp post s held ↔ post (some ()) (f s) held := .rfl

@[simp] theorem wp_use (p : ℕ) : (use p : Code σ Unit).wp post s held ↔
    p ∈ held ∧ post (some ()) s held := .rfl

@[simp] theorem wp_free (p : ℕ) : (free p : Code σ Unit).wp post s held ↔
    p ∈ held ∧ post (some ()) s (held.erase p) := .rfl

@[simp] theorem wp_mayRaise : (mayRaise : Code σ Unit).wp post s held ↔
    post none s held ∧ post (some ()) s held := by
  simp [mayRaise, and_comm]

/-- The rule of a loop: an invariant that every round keeps unless it raises. -/
theorem wp_forEach {f : β → Code σ Unit} {xs : List β} (inv : σ → Finset ℕ → Prop)
    (hround : ∀ x ∈ xs, ∀ s held, inv s held → (f x).wp (fun r s held => match r with
      | some () => inv s held
      | none => post none s held) s held)
    (hend : ∀ s held, inv s held → post (some ()) s held) (h : inv s held) :
    (forEach f xs).wp post s held := by
  induction xs generalizing s held with
  | nil => exact hend s held h
  | cons x xs ih =>
    rw [forEach, wp_bind]
    refine wp_mono (fun r s held hr => ?_) (hround x List.mem_cons_self s held h)
    cases r with
    | none => exact hr
    | some u => exact ih (fun y hy => hround y (List.mem_cons_of_mem x hy)) hr

end

/-- What happens in a run from nothing held, and whether an error unwinds out of it. -/
def trace (code : Code σ α) (s : σ) (answers : List Bool) : List (Event ℕ) × Option α :=
  let (es, r, _) := (code s).run answers 1
  (es, r)

/-- The state in which such a run ends. -/
def final (code : Code σ α) (s : σ) (answers : List Bool) : σ := ((code s).run answers 1).2.2

/-- Code that satisfies its condition uses and releases only what it holds, and acquires nothing
twice. -/
theorem wp_trace {code : Code σ α} {post : Option α → σ → Finset ℕ → Prop} {s : σ}
    (h : code.wp post s ∅) (answers : List Bool) :
    ∃ names, Lawful [] (code.trace s answers).1 names ∧ (acquired (code.trace s answers).1).Nodup ∧
      post (code.trace s answers).2 (code.final s answers) names.toFinset := by
  obtain ⟨names, hlawful, -, hpost, hacquired, -⟩ :=
    @Act.wp_run _ _ _ [] h List.nodup_nil answers 1 Nat.one_pos (by simp)
  exact ⟨names, hlawful, hacquired, hpost⟩

end Code
end ROssFuzz.OwnedCode
