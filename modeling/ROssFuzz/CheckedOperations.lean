import Mathlib.Data.List.Basic
import Mathlib.Data.Int.Notation

/-!
# Checked operations

A vector is a list and an `int` is an integer. An access outside the vector and a result
outside the type are faults, told apart from an error that the program signals itself. A
loop that copies entries between two vectors is a list of moves.
-/

namespace ROssFuzz.CheckedOperations

universe u

/-- How a computation ends early. -/
inductive Stop
  /-- an error that it signals -/
  | error
  /-- an access or an operation that it must not make -/
  | fault
  deriving DecidableEq

theorem bind_eq_ok {β γ : Type u} {r : Except Stop β} {f : β → Except Stop γ} {z : γ} :
    r >>= f = .ok z ↔ ∃ y, r = .ok y ∧ f y = .ok z := by
  cases r with
  | error => exact ⟨nofun, nofun⟩
  | ok y => exact ⟨fun h => ⟨y, rfl, h⟩, fun ⟨_, hy, h⟩ => Except.ok.inj hy ▸ h⟩

/-! ### Integers -/

def intMin : ℤ := -2147483648

def intMax : ℤ := 2147483647

/-- An `int`. -/
abbrev CInt := {x : ℤ // intMin ≤ x ∧ x ≤ intMax}

/-- What comes of an operation on `int`s whose exact result is `x`. -/
def asInt (x : ℤ) : Except Stop ℤ :=
  if intMin ≤ x ∧ x ≤ intMax then .ok x else .error .fault

/-- An `int` converted to `unsigned int`. -/
def asUnsigned (x : ℤ) : ℕ := (x % 0x100000000).toNat

theorem asInt_of_mem {x : ℤ} (hmin : intMin ≤ x) (hmax : x ≤ intMax) : asInt x = .ok x :=
  if_pos ⟨hmin, hmax⟩

theorem asInt_of_gt {x : ℤ} (h : intMax < x) : asInt x = .error .fault :=
  if_neg fun hx => absurd hx.2 (by omega)

/-! ### Vectors -/

variable {α : Type*}

def load (v : List α) (i : ℕ) : Except Stop α :=
  match v[i]? with
  | some x => .ok x
  | none => .error .fault

def store (v : List α) (i : ℕ) (x : α) : Except Stop (List α) :=
  if i < v.length then .ok (v.set i x) else .error .fault

/-- `v[i]` with an index that may be negative. -/
def loadAt (v : List α) (i : ℤ) : Except Stop α :=
  if i < 0 then .error .fault else load v i.toNat

def storeAt (v : List α) (i : ℤ) (x : α) : Except Stop (List α) :=
  if i < 0 then .error .fault else store v i.toNat x

@[simp] theorem loadAt_natCast (v : List α) (i : ℕ) : loadAt v i = load v i := by
  rw [loadAt, if_neg (by omega), Int.toNat_natCast]

@[simp] theorem storeAt_natCast (v : List α) (i : ℕ) (x : α) : storeAt v i x = store v i x := by
  rw [storeAt, if_neg (by omega), Int.toNat_natCast]

theorem load_eq_ok_iff {v : List α} {i : ℕ} {x : α} : load v i = .ok x ↔ v[i]? = some x := by
  unfold load
  cases v[i]? <;> simp

theorem load_of_lt {v : List α} {i : ℕ} (h : i < v.length) : load v i = .ok v[i] :=
  load_eq_ok_iff.mpr (List.getElem?_eq_getElem h)

theorem store_of_lt {v : List α} {i : ℕ} (h : i < v.length) (x : α) :
    store v i x = .ok (v.set i x) := if_pos h

/-- `dst[m.2] = src[m.1]` for every move in turn, between two different vectors. -/
def transfer (src : List α) : List (ℕ × ℕ) → List α → Except Stop (List α)
  | [], dst => .ok dst
  | m :: moves, dst => do transfer src moves (← store dst m.2 (← load src m.1))

/-- Moves inside both vectors that agree on what each place gets: every place named gets its
entry, and the others stay. -/
theorem transfer_spec (src : List α) (moves : List (ℕ × ℕ)) (dst : List α)
    (hin : ∀ m ∈ moves, m.1 < src.length ∧ m.2 < dst.length)
    (hone : ∀ m ∈ moves, ∀ m' ∈ moves, m.2 = m'.2 → m.1 = m'.1) :
    ∃ out, transfer src moves dst = .ok out ∧ out.length = dst.length ∧
      (∀ m ∈ moves, out[m.2]? = src[m.1]?) ∧
      ∀ i, (∀ m ∈ moves, m.2 ≠ i) → out[i]? = dst[i]? := by
  induction moves generalizing dst with
  | nil => exact ⟨dst, rfl, rfl, by simp, fun _ _ => rfl⟩
  | cons m moves ih =>
    obtain ⟨hsrc, hdst⟩ := hin m List.mem_cons_self
    obtain ⟨out, hout, hlength, hmoved, hrest⟩ := ih (dst.set m.2 src[m.1])
      (fun m' hm' => by simpa using hin m' (List.mem_cons_of_mem _ hm'))
      fun a ha b hb => hone a (List.mem_cons_of_mem _ ha) b (List.mem_cons_of_mem _ hb)
    refine ⟨out, ?_, by simpa using hlength, ?_, ?_⟩
    · rw [transfer, load_of_lt hsrc]
      change (store dst m.2 src[m.1] >>= transfer src moves) = _
      rw [store_of_lt hdst]
      exact hout
    · intro a ha
      rcases List.mem_cons.mp ha with rfl | ha
      · by_cases hlater : ∃ b ∈ moves, b.2 = a.2
        · -- a later move of the same entry
          obtain ⟨b, hb, heq⟩ := hlater
          rw [← heq, hmoved b hb, hone b (List.mem_cons_of_mem _ hb) a List.mem_cons_self heq]
        · rw [hrest a.2 fun b hb heq => hlater ⟨b, hb, heq⟩, List.getElem?_set_self hdst,
            List.getElem?_eq_getElem hsrc]
      · exact hmoved a ha
    · intro i hi
      rw [hrest i fun b hb => hi b (List.mem_cons_of_mem _ hb),
        List.getElem?_set_ne (hi m List.mem_cons_self)]

/-- A loop over the first places of a vector. -/
theorem transfer_range (src dst : List α) (f : ℕ → ℕ) {n : ℕ} (hsrc : ∀ i < n, f i < src.length)
    (hdst : n ≤ dst.length) :
    ∃ out, transfer src ((List.range n).map fun i => (f i, i)) dst = .ok out ∧
      out.length = dst.length ∧ (∀ i < n, out[i]? = src[f i]?) ∧
      ∀ i, n ≤ i → out[i]? = dst[i]? := by
  obtain ⟨out, hout, hlength, hmoved, hrest⟩ := transfer_spec src
    ((List.range n).map fun i => (f i, i)) dst
    (by
      intro m hm
      obtain ⟨i, hi, rfl⟩ := List.mem_map.mp hm
      rw [List.mem_range] at hi
      exact ⟨hsrc i hi, Nat.lt_of_lt_of_le hi hdst⟩)
    (by
      intro m hm m' hm' heq
      obtain ⟨i, -, rfl⟩ := List.mem_map.mp hm
      obtain ⟨j, -, rfl⟩ := List.mem_map.mp hm'
      exact congrArg f heq)
  refine ⟨out, hout, hlength, fun i hi => ?_, fun i hi => hrest i fun m hm heq => ?_⟩
  · exact hmoved (f i, i) (List.mem_map.mpr ⟨i, List.mem_range.mpr hi, rfl⟩)
  · obtain ⟨j, hj, rfl⟩ := List.mem_map.mp hm
    rw [List.mem_range] at hj
    exact absurd heq (Nat.ne_of_lt (Nat.lt_of_lt_of_le hj hi))

/-! ### What a computation is safe for -/

/-- It makes no fault, and what it comes to, if it signals no error, is as `P` says. -/
def Safe {β : Type*} (r : Except Stop β) (P : β → Prop) : Prop :=
  r ≠ .error .fault ∧ ∀ y, r = .ok y → P y

namespace Safe

variable {β γ : Type u} {P : β → Prop} {Q : γ → Prop}

theorem ok {y : β} (h : P y) : Safe (.ok y) P := ⟨nofun, fun _ hy => Except.ok.inj hy ▸ h⟩

theorem error : Safe (.error .error) P := ⟨nofun, nofun⟩

theorem bind {r : Except Stop β} {f : β → Except Stop γ} (hr : Safe r P)
    (hf : ∀ y, P y → Safe (f y) Q) : Safe (r >>= f) Q := by
  rcases r with e | y
  · exact ⟨fun h => hr.1 (by cases h; rfl), nofun⟩
  · exact hf y (hr.2 y rfl)

theorem mono {r : Except Stop β} {P' : β → Prop} (hr : Safe r P) (h : ∀ y, P y → P' y) :
    Safe r P' := ⟨hr.1, fun y hy => h y (hr.2 y hy)⟩

/-- `if (refused) error(...);` -/
theorem guard {p : Prop} [Decidable p] {f : Except Stop γ} (hf : ¬ p → Safe f Q) :
    Safe (if p then .error .error else f) Q := by
  split
  · exact error
  · exact hf ‹_›

end Safe

theorem safe_load {v : List α} {i : ℕ} (h : i < v.length) {P : α → Prop} (hP : P v[i]) :
    Safe (load v i) P := by
  rw [load_of_lt h]
  exact .ok hP

theorem safe_store {v : List α} {i : ℕ} (h : i < v.length) {x : α} {P : List α → Prop}
    (hP : P (v.set i x)) : Safe (store v i x) P := by
  rw [store_of_lt h]
  exact .ok hP

theorem safe_storeAt {v : List α} {i : ℤ} (h₀ : 0 ≤ i) (h : i < v.length) {x : α}
    {P : List α → Prop} (hP : P (v.set i.toNat x)) : Safe (storeAt v i x) P := by
  rw [storeAt, if_neg (by omega)]
  exact safe_store (by omega) hP

end ROssFuzz.CheckedOperations
