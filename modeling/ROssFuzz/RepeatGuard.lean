import ROssFuzz.Utf8Bytes
import Mathlib.Algebra.BigOperators.Ring.List
import Mathlib.Algebra.Order.BigOperators.Group.List
import Mathlib.Tactic.Ring

/-!
# The repeat guard

`fuzz_repeat_product_excessive` scans the bytes of a pattern for counted braces; TRE
expands the tree that the pattern stands for. A pattern here is the tree, and its text is
what the guard sees. The guard's memory is as in the chartr guard, and its `double` only
ever holds whole numbers, at most 10¹³.
-/

namespace ROssFuzz.RepeatGuard
open Utf8Bytes

/-- `FUZZ_MAX_REPEAT_PRODUCT`. -/
def fuzzMaxRepeatProduct : ℕ := 1000000

/-- Where `cur` saturates. -/
def boundLimit : ℕ := 10000000

/-- The locals of a round of the guard when the loop over `q` has ended; `q` is the text
from there. -/
structure Brace where
  bound : ℕ
  cur : ℕ
  counted : Bool
  q : List UInt8
  deriving DecidableEq

/-- The loop over the inside of the braces. -/
def scanBrace (bound cur : ℕ) (counted : Bool) : List UInt8 → Option Brace
  | [] => none
  | b :: q =>
      if b.toNat = 0 ∨ b.toNat = '}'.toNat then some ⟨bound, cur, counted, b :: q⟩
      else if '0'.toNat ≤ b.toNat ∧ b.toNat ≤ '9'.toNat then
        -- saturate; already over any budget
        let cur := cur * 10 + (b.toNat - '0'.toNat)
        scanBrace bound (if cur > boundLimit then boundLimit else cur) true q
      else if b.toNat = ','.toNat then scanBrace (if cur > bound then cur else bound) 0 counted q
      -- not a counted repeat
      else some ⟨bound, cur, false, b :: q⟩

/-- The loop over the pattern. Every round takes at least one byte, so `fuel` at the length
of the text is enough. -/
def productLoop : ℕ → List UInt8 → ℕ → Option Bool
  | 0, _, _ => none
  | _ + 1, [], _ => none
  | fuel + 1, b :: p, product =>
      if b.toNat = 0 then some false
      else if b.toNat ≠ '{'.toNat then productLoop fuel p product
      else do
        let r ← scanBrace 0 0 false p
        if !r.counted ∨ (r.q.head?.map UInt8.toNat) ≠ some '}'.toNat then productLoop fuel p product
        else
          let bound := if r.cur > r.bound then r.cur else r.bound
          let product := if bound > 1 then product * bound else product
          if product > fuzzMaxRepeatProduct then some true
          else productLoop fuel r.q.tail product

/-- The guard from `p` on. -/
def scanFrom (p : List UInt8) (product : ℕ) : Option Bool := productLoop p.length p product

def fuzzRepeatProductExcessive (pattern : List UInt8) : Option Bool := scanFrom pattern 1

/-! ### Patterns -/

/-- A number as a pattern gives it. -/
structure Numeral where
  digits : List (Fin 10)
  digits_ne : digits ≠ []

def Numeral.value (n : Numeral) : ℕ := n.digits.foldl (fun v (d : Fin 10) => v * 10 + d.val) 0

def Numeral.render (n : Numeral) : List Char := n.digits.map fun d => Nat.digitChar d.val

/-- The errors that a repeat's body may have: insertions, deletions, substitutions, any. -/
inductive ApproxOp | insertions | deletions | substitutions | errors deriving DecidableEq

def ApproxOp.render : ApproxOp → Char
  | .insertions => '+'
  | .deletions => '-'
  | .substitutions => '#'
  | .errors => '~'

/-- An approximate-matching parameter, such as `+14`; without a number it sets no limit. -/
structure ApproxParam where
  op : ApproxOp
  limit : Option Numeral

def ApproxParam.render (a : ApproxParam) : List Char :=
  a.op.render :: (match a.limit with | none => [] | some n => n.render)

/-- What stands in the braces: `m` or `m,n`, and the parameters. -/
structure Bound where
  min : Numeral
  max : Option Numeral
  params : List ApproxParam

def Bound.renderCount (b : Bound) : List Char :=
  b.min.render ++ (match b.max with | none => [] | some n => ',' :: n.render)

def Bound.render (b : Bound) : List Char :=
  '{' :: (b.renderCount ++ b.params.flatMap ApproxParam.render) ++ ['}']

/-- The copies `tre_expand_ast` makes: as many as the minimum, and on to the maximum. -/
def Bound.count (b : Bound) : ℕ :=
  match b.max with | none => b.min.value | some n => Nat.max b.min.value n.value

/-- A character that stands for itself in a pattern. -/
def Ordinary (c : Char) : Prop :=
  c.toNat ≠ 0 ∧ c ∉ ['(', ')', '[', '{', '|', '.', '*', '+', '?', '^', '$', '\\']

instance (c : Char) : Decidable (Ordinary c) := by unfold Ordinary; infer_instance

/-- Only an atom can be repeated: a sequence needs a group around it first. -/
inductive Level | atom | sequence

inductive Pattern : Level → Type
  | literal (c : Char) (hc : Ordinary c) : Pattern .atom
  | group {l : Level} (capture : Bool) (p : Pattern l) : Pattern .atom
  | repeated (p : Pattern .atom) (b : Bound) : Pattern .atom
  | concat {l l' : Level} (p : Pattern l) (q : Pattern l') : Pattern .sequence

namespace Pattern

variable {l : Level}

def render : {l : Level} → Pattern l → List Char
  | _, literal c _ => [c]
  | _, group capture p => '(' :: ((if capture then [] else ['?', ':']) ++ p.render) ++ [')']
  | _, repeated p b => p.render ++ b.render
  | _, concat p q => p.render ++ q.render

/-- The pattern as a C string. -/
def text (p : Pattern l) : List UInt8 := encode p.render ++ [0]

def literals : {l : Level} → Pattern l → ℕ
  | _, literal _ _ => 1
  | _, group _ p => p.literals
  | _, repeated p _ => p.literals
  | _, concat p q => p.literals + q.literals

end Pattern

/-! ### The expansion -/

inductive Ast
  | empty
  | literal (c : Char)
  | catenation (left right : Ast)

def Ast.literals : Ast → ℕ
  | empty => 0
  | literal _ => 1
  | catenation left right => left.literals + right.literals

namespace Pattern

variable {l : Level}

/-- For each literal, the product of the counts of the repeats around it. -/
def weights : {l : Level} → Pattern l → List ℕ
  | _, literal _ _ => [1]
  | _, group _ p => p.weights
  | _, repeated p b => p.weights.map (· * b.count)
  | _, concat p q => p.weights ++ q.weights

/-- The product of the counts of the repeats without parameters, or of those with them. A
count of zero or one multiplies nothing. -/
def product (withParams : Bool) : {l : Level} → Pattern l → ℕ
  | _, literal _ _ => 1
  | _, group _ p => p.product withParams
  | _, repeated p b =>
      p.product withParams * (if b.params.isEmpty = withParams then 1 else max 1 b.count)
  | _, concat p q => p.product withParams * q.product withParams

@[simp] theorem length_weights (p : Pattern l) : p.weights.length = p.literals := by
  induction p with
  | literal => rfl
  | group _ _ ih => exact ih
  | repeated p b ih => simpa [weights, literals] using ih
  | concat p q ihp ihq => simp [weights, literals, ihp, ihq]

end Pattern

private theorem scanBrace_length {bound cur : ℕ} {counted : Bool} {p : List UInt8} {r : Brace}
    (h : scanBrace bound cur counted p = some r) : r.q.length ≤ p.length := by
  induction p generalizing bound cur counted with
  | nil => cases h
  | cons b q ih =>
    rw [scanBrace] at h
    split at h
    · cases h
      rfl
    split at h
    · exact (ih h).trans (Nat.le_succ _)
    split at h
    · exact (ih h).trans (Nat.le_succ _)
    · cases h
      rfl

/-- Fuel past the length of the text changes nothing. -/
private theorem productLoop_fuel {fuel fuel' : ℕ} {p : List UInt8} {product : ℕ}
    (h : p.length ≤ fuel) (h' : p.length ≤ fuel') :
    productLoop fuel p product = productLoop fuel' p product := by
  induction fuel generalizing fuel' p product with
  | zero =>
    obtain rfl := List.length_eq_zero_iff.mp (Nat.le_zero.mp h)
    cases fuel' <;> rfl
  | succ fuel ih =>
    cases p with
    | nil => cases fuel' <;> rfl
    | cons b p =>
      cases fuel' with
      | zero => simp at h'
      | succ fuel' =>
        simp only [List.length_cons, Nat.add_le_add_iff_right] at h h'
        have hskip : ∀ product, productLoop fuel p product = productLoop fuel' p product :=
          fun _ => ih h h'
        rw [productLoop, productLoop]
        cases hr : scanBrace 0 0 false p with
        | none => simp [hskip]
        | some r =>
          have hlen := scanBrace_length hr
          have htail : r.q.tail.length ≤ p.length := by
            rw [List.length_tail]
            omega
          have hnext : ∀ product, productLoop fuel r.q.tail product =
              productLoop fuel' r.q.tail product := fun _ => ih (htail.trans h) (htail.trans h')
          simp [hskip, hnext]

theorem scanFrom_cons {b : UInt8} {p : List UInt8} {product : ℕ} (h0 : b.toNat ≠ 0)
    (hb : b.toNat ≠ '{'.toNat) : scanFrom (b :: p) product = scanFrom p product := by
  simp only [scanFrom, List.length_cons, productLoop]
  rw [if_neg h0, if_pos hb]

/-- Braces that are no count are passed over byte by byte. -/
theorem scanFrom_uncounted {p : List UInt8} {r : Brace} {product : ℕ}
    (hr : scanBrace 0 0 false p = some r)
    (hcounted : r.counted = false ∨ r.q.head?.map UInt8.toNat ≠ some '}'.toNat) :
    scanFrom (0x7b :: p) product = scanFrom p product := by
  have hfailed : (!r.counted) = true ∨ r.q.head?.map UInt8.toNat ≠ some '}'.toNat :=
    hcounted.imp_left fun h => by rw [h]; rfl
  simp only [scanFrom, List.length_cons, productLoop, hr, Option.bind_eq_bind, Option.bind_some]
  rw [if_neg (by decide), if_neg (by decide), if_pos hfailed]

theorem scanFrom_counted {p tail : List UInt8} {bound cur product : ℕ}
    (hr : scanBrace 0 0 false p = some ⟨bound, cur, true, 0x7d :: tail⟩) :
    scanFrom (0x7b :: p) product =
      if product * max 1 (max bound cur) > fuzzMaxRepeatProduct then some true
      else scanFrom tail (product * max 1 (max bound cur)) := by
  have hlen : tail.length ≤ p.length := by
    have h := scanBrace_length hr
    simp only [List.length_cons] at h
    omega
  have hbound : (if cur > bound then cur else bound) = max bound cur := by
    split <;> omega
  have hmul : (if max bound cur > 1 then product * max bound cur else product) =
      product * max 1 (max bound cur) := by
    split
    · rw [max_eq_right (by omega : 1 ≤ max bound cur)]
    · rw [max_eq_left (by omega), Nat.mul_one]
  have hfuel : ∀ product, productLoop p.length tail product =
      productLoop tail.length tail product := fun _ => productLoop_fuel hlen le_rfl
  simp only [scanFrom, List.length_cons, productLoop, hr, Option.bind_eq_bind, Option.bind_some,
    List.tail_cons, hbound, hmul, hfuel]
  rfl

/-! ### Numbers -/

/-- What the guard multiplies by: nothing when the bound carries parameters. -/
private def seen (b : Bound) : ℕ := if b.params.isEmpty = false then 1 else max 1 b.count

/-- A count past the limit is past the budget as well, cut off or not. -/
theorem budget_lt_of_limit_le {product n : ℕ} (hpos : 0 < product) (hn : boundLimit ≤ n) :
    product * max 1 n > fuzzMaxRepeatProduct := by
  have hlt : fuzzMaxRepeatProduct < max 1 n := by
    simp only [boundLimit, fuzzMaxRepeatProduct] at *
    omega
  exact hlt.trans_le (Nat.le_mul_of_pos_left _ hpos)

namespace Pattern

end Pattern

end ROssFuzz.RepeatGuard
