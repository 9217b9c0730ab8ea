import Mathlib.Data.List.Basic
import Mathlib.Order.Basic

/-!
# Element methods with the collector disabled

C code reads elements of values that it has not protected, and an ALTREP class of a package runs
code of its own for that: it allocates, reads other objects, raises errors and handles them.
`NOGC_DISPATCH` disables the collector meanwhile. A context keeps `R_GCEnabled`, and an error that
unwinds to it sets the flag back.

R's memory is given by what it does for an allocation, of which all that is used is that nothing is
collected while the collector is disabled.
-/

namespace ROssFuzz.ElementMethods

/-- The accessors that C code counts on not to collect. -/
inductive Accessor
  | dataptr | stringElt | listElt
  | elt | getRegion | isSorted | noNA | dataptrOrNull
  deriving DecidableEq

/-- What C code and a method do, as far as the collector is concerned; `attempt` is a context. -/
inductive Code
  | done
  | error
  | alloc (next : Code)
  | touch (x : ℕ) (next : Code)
  | call (accessor : Accessor) (method next : Code)
  | attempt (body next : Code)

/-- An allocation is told whether the collector is enabled. It may collect, and it may fail. -/
structure Collector (σ : Type) where
  alive : σ → ℕ → Bool
  allocate : Bool → σ → Option σ
  disabled : ∀ {h h' x}, allocate false h = some h' → alive h x = true → alive h' x = true

structure State (σ : Type) where
  /-- `R_GCEnabled` -/
  gcEnabled : Bool
  heap : σ

/-- `dead` for a use of an object that has been collected. -/
inductive Outcome | done | error | dead (x : ℕ) deriving DecidableEq

section
variable {σ : Type}

/-- `NOGC_DISPATCH`. -/
def nogcDispatch (call : State σ → Outcome × State σ) (s : State σ) : Outcome × State σ :=
  match call { s with gcEnabled := false } with
  | (.done, t) => (.done, { t with gcEnabled := s.gcEnabled })
  | other => other

variable (collector : Collector σ) (guarded : Accessor → Bool)

/-- `guarded` are the accessors that disable the collector. -/
def run : Code → State σ → Outcome × State σ
  | .done, s => (.done, s)
  | .error, s => (.error, s)
  | .alloc next, s =>
      match collector.allocate s.gcEnabled s.heap with
      | some h => run next { s with heap := h }
      | none => (.error, s)
  | .touch x next, s => if collector.alive s.heap x then run next s else (.dead x, s)
  | .call accessor method next, s =>
      match if guarded accessor then nogcDispatch (run method) s else run method s with
      | (.done, t) => run next t
      | other => other
  | .attempt body next, s =>
      match run body s with
      | (.done, t) => run next t
      | (.error, t) => run next { t with gcEnabled := s.gcEnabled }
      | other => other

end

/-- All of them are, and before it were those that `altrep.c` had. -/
def allGuarded : Accessor → Bool := fun _ => true

def oldGuarded : Accessor → Bool
  | .dataptr | .stringElt | .listElt => true
  | _ => false

/-- C code that does not allocate, but for what the methods of such accessors do. -/
def Code.Reads (guarded : Accessor → Bool) : Code → Prop
  | .done | .error => True
  | .alloc _ => False
  | .touch _ next => next.Reads guarded
  | .call accessor _ next => guarded accessor = true ∧ next.Reads guarded
  | .attempt body next => body.Reads guarded ∧ next.Reads guarded

/-- What was alive is alive, and has been found wherever it was used. -/
structure Kept {σ : Type} (collector : Collector σ) (s : State σ) (r : Outcome × State σ) : Prop where
  alive : ∀ x, collector.alive s.heap x = true → collector.alive r.2.heap x = true
  found : ∀ x, collector.alive s.heap x = true → r.1 ≠ .dead x

/-- An accessor that keeps everything, whatever its method does and whatever the heap is like. -/
def NeverCollects (guarded : Accessor → Bool) (accessor : Accessor) : Prop :=
  ∀ (σ : Type) (collector : Collector σ) (method : Code) (s : State σ),
    Kept collector s (run collector guarded (.call accessor method .done) s)

section
variable {σ : Type} {collector : Collector σ} {guarded : Accessor → Bool}

namespace Kept

variable {s t : State σ} {r : Outcome × State σ}

theorem refl {o : Outcome} (ho : ∀ x, o ≠ .dead x) : Kept collector s (o, s) :=
  ⟨fun _ => id, fun x _ => ho x⟩

theorem trans (h : ∀ x, collector.alive s.heap x = true → collector.alive t.heap x = true)
    (h' : Kept collector t r) : Kept collector s r :=
  ⟨fun x hx => h'.alive x (h x hx), fun x hx => h'.found x (h x hx)⟩

end Kept

/-! ### The flag -/

/-- Code that ends leaves the flag as it was. -/
theorem run_gcEnabled (code : Code) {s t : State σ} (h : run collector guarded code s = (.done, t)) :
    t.gcEnabled = s.gcEnabled := by
  induction code generalizing s t with
  | done => exact congrArg State.gcEnabled (Prod.mk.inj h).2.symm
  | error => exact absurd (Prod.mk.inj h).1 (by decide)
  | alloc next ih =>
    rw [run] at h
    split at h
    next heap _ => exact @ih { s with heap } t h
    · exact absurd (Prod.mk.inj h).1 (by decide)
  | touch x next ih =>
    rw [run] at h
    split at h
    · exact ih h
    · exact absurd (Prod.mk.inj h).1 nofun
  | call accessor method next ihmethod ihnext =>
    rw [run] at h
    split at h
    next u hu =>
      rw [ihnext h]
      split at hu
      · rw [nogcDispatch] at hu
        split at hu
        next v hv =>
          obtain rfl := (Prod.mk.inj hu).2
          rfl
        next other hother => exact absurd hu (hother u)
      · exact ihmethod hu
    next other hother => exact absurd h (hother t)
  | attempt body next ihbody ihnext =>
    rw [run] at h
    split at h
    next u hu => rw [ihnext h, ihbody hu]
    next u hu =>
      have hnext := ihnext h
      exact hnext
    next hdone _ => exact absurd h (hdone t)

/-! ### The objects -/

private theorem nogcDispatch_kept {call : State σ → Outcome × State σ} {s : State σ}
    (h : Kept collector { s with gcEnabled := false } (call { s with gcEnabled := false })) :
    Kept collector s (nogcDispatch call s) := by
  rw [nogcDispatch]
  rcases hcall : call { s with gcEnabled := false } with ⟨outcome, t⟩
  rw [hcall] at h
  cases outcome with
  | done => exact ⟨h.alive, nofun⟩
  | error | dead => exact ⟨h.alive, h.found⟩

/-- Nothing is collected while the collector is disabled, nor by code that only reads. -/
theorem run_kept (code : Code) {s : State σ} (h : s.gcEnabled = false ∨ code.Reads guarded) :
    Kept collector s (run collector guarded code s) := by
  induction code generalizing s with
  | done | error => exact .refl nofun
  | alloc next ih =>
    obtain hgc | hreads := h
    · rw [run, hgc]
      split
      next heap hheap =>
        exact .trans (fun x => collector.disabled hheap) (ih (.inl rfl))
      · exact .refl nofun
    · exact hreads.elim
  | touch x next ih =>
    rw [run]
    split
    next => exact ih h
    next hx =>
      refine ⟨fun _ => id, fun y hy hdead => hx ?_⟩
      cases hdead
      exact hy
  | call accessor method next ihmethod ihnext =>
    have hcall : Kept collector s (if guarded accessor = true then
        nogcDispatch (run collector guarded method) s else run collector guarded method s) := by
      split
      next => exact nogcDispatch_kept (ihmethod (.inl rfl))
      next hguarded => exact ihmethod (.inl (h.resolve_right fun hreads => hguarded hreads.1))
    have hgc : ∀ t, (if guarded accessor = true then nogcDispatch (run collector guarded method) s
        else run collector guarded method s) = (.done, t) → t.gcEnabled = s.gcEnabled :=
      fun t ht => @run_gcEnabled _ collector guarded (.call accessor method .done) s t <| by
        rw [run, ht]
        rfl
    rw [run]
    split
    next t ht =>
      rw [ht] at hcall
      exact .trans hcall.alive (ihnext (h.imp (hgc t ht).trans And.right))
    next => exact hcall
  | attempt body next ihbody ihnext =>
    have hbody := ihbody (h.imp_right And.left)
    rw [run]
    split
    next t ht =>
      rw [ht] at hbody
      exact .trans hbody.alive (ihnext (h.imp (run_gcEnabled body ht).trans And.right))
    next t ht =>
      rw [ht] at hbody
      exact @Kept.trans _ _ s { t with gcEnabled := s.gcEnabled } _ hbody.alive
        (ihnext (h.imp_right And.right))
    next => exact hbody

/-- A collector that collects everything when it may. -/
def everything : Collector Bool where
  alive h _ := h
  allocate enabled h := some (h && !enabled)
  disabled := by
    intro h h' _ hh' hh
    simpa [hh] using hh'.symm

theorem neverCollects_iff (accessor : Accessor) :
    NeverCollects guarded accessor ↔ guarded accessor = true := by
  refine ⟨fun h => of_not_not fun hguarded => ?_, fun h σ collector method s =>
    run_kept (.call accessor method .done) (.inr ⟨h, trivial⟩)⟩
  have hkept := (h Bool everything (.alloc .done) ⟨true, true⟩).alive 0 rfl
  simp only [run, hguarded] at hkept
  exact absurd hkept (by decide)

end

/-- C code that does not allocate itself finds all objects that were there, whatever the methods do
of which it reads elements, and the collector is as it was when it ends. Before, that was so of
three accessors only. -/
theorem nogcDispatch_reads :
    (∀ (σ : Type) (collector : Collector σ) (code : Code) (s : State σ), code.Reads allGuarded →
      Kept collector s (run collector allGuarded code s) ∧
      ∀ t, run collector allGuarded code s = (.done, t) → t.gcEnabled = s.gcEnabled) ∧
    ∀ accessor, NeverCollects allGuarded accessor ∧
      (NeverCollects oldGuarded accessor ↔ accessor ∈ [.dataptr, .stringElt, .listElt]) := by
  refine ⟨fun σ collector code s hreads => ⟨run_kept code (.inr hreads), fun t =>
    run_gcEnabled code⟩, fun accessor => ⟨(neverCollects_iff accessor).mpr rfl, ?_⟩⟩
  rw [neverCollects_iff]
  cases accessor <;> decide

/-- A method that allocates twice, calls another method and raises an error, which is handled. -/
theorem nogcDispatch_reads_attempt :
    run everything allGuarded
      (.attempt (.call .elt (.alloc (.call .noNA (.alloc .done) .error)) .done) (.touch 7 .done))
      ⟨true, true⟩ = (.done, ⟨true, true⟩) ∧
    Kept everything ⟨true, true⟩ (run everything allGuarded
      (.attempt (.call .elt (.alloc (.call .noNA (.alloc .done) .error)) .done) (.touch 7 .done))
      ⟨true, true⟩) :=
  ⟨rfl, (nogcDispatch_reads.1 Bool everything
    (.attempt (.call .elt (.alloc (.call .noNA (.alloc .done) .error)) .done) (.touch 7 .done))
    ⟨true, true⟩ ⟨⟨rfl, trivial⟩, trivial⟩).1⟩

end ROssFuzz.ElementMethods
