import ROssFuzz.DoubleIntegers
import ROssFuzz.RepeatGuard
import Mathlib.Data.List.TakeWhile

/-!
# The arithmetic of the repeat guard

The repeat guard with the `unsigned long`s and the `double` that it has, and the exact product
that it stands for: of every group of braces around digits and commas, with a digit among
them, the largest number, and 1 at least.
-/

namespace ROssFuzz.RepeatGuardArithmetic
open RepeatGuard (fuzzMaxRepeatProduct boundLimit scanFrom)
open DoubleIntegers

/-- The locals of a round when the loop over `q` has ended. -/
structure Brace where
  bound : UInt64
  cur : UInt64
  counted : Bool
  q : List UInt8

/-- The loop over the inside of the braces. -/
def scanBrace (bound cur : UInt64) (counted : Bool) : List UInt8 → Option Brace
  | [] => none
  | b :: q =>
      if b.toNat = 0 ∨ b.toNat = '}'.toNat then some ⟨bound, cur, counted, b :: q⟩
      else if '0'.toNat ≤ b.toNat ∧ b.toNat ≤ '9'.toNat then
        let cur := cur * 10 + UInt64.ofNat (b.toNat - '0'.toNat)
        -- saturate; already over any budget
        scanBrace bound (if cur > 10000000 then 10000000 else cur) true q
      else if b.toNat = ','.toNat then scanBrace (if cur > bound then cur else bound) 0 counted q
      -- not a counted repeat
      else some ⟨bound, cur, false, b :: q⟩

/-- `product *= (double)bound`, where the bound is more than 1. -/
def multiply (product : ℕ) (bound : UInt64) : Option ℕ :=
  if bound > 1 then do mul product (← nearest bound.toNat) else some product

/-- The loop over the pattern; `product` is a double. -/
def productLoop : ℕ → List UInt8 → ℕ → Option Bool
  | 0, _, _ => none
  | _ + 1, [], _ => none
  | fuel + 1, b :: p, product =>
      if b.toNat = 0 then some false
      else if b.toNat ≠ '{'.toNat then productLoop fuel p product
      else do
        let r ← scanBrace 0 0 false p
        if !r.counted ∨ (r.q.head?.map UInt8.toNat) ≠ some '}'.toNat then productLoop fuel p product
        else do
          let product ← multiply product (if r.cur > r.bound then r.cur else r.bound)
          if product > fuzzMaxRepeatProduct then some true
          else productLoop fuel r.q.tail product

/-- `fuzz_repeat_product_excessive`; none when it reads past the end of the pattern, when it
has not returned after as many rounds as the pattern has bytes, or when the product is no
longer a finite double. -/
def fuzzRepeatProductExcessive (pattern : List UInt8) : Option Bool :=
  productLoop pattern.length pattern 1

/-! ### The exact product -/

def isDigit (b : UInt8) : Bool := '0'.toNat ≤ b.toNat && b.toNat ≤ '9'.toNat

def isComma (b : UInt8) : Bool := b.toNat = ','.toNat

def isInside (b : UInt8) : Bool := isDigit b || isComma b

/-- What stands in the braces whose text is `p` from behind the first, if they are a group. -/
def groupAt (p : List UInt8) : Option (List UInt8) :=
  if (p.takeWhile isInside).any isDigit ∧ (p.dropWhile isInside).head? = some 0x7d then
    some (p.takeWhile isInside)
  else none

def number (digits : List UInt8) : ℕ :=
  digits.foldl (fun v b => v * 10 + (b.toNat - '0'.toNat)) 0

def largest (inside : List UInt8) : ℕ := ((inside.splitOnP isComma).map number).foldr max 0

/-- What the groups of a text multiply by, from behind the bytes of a group already read. -/
def factors : ℕ → List UInt8 → List ℕ
  | _, [] => []
  | skip + 1, _ :: p => factors skip p
  | 0, b :: p =>
      if b.toNat = '{'.toNat then
        match groupAt p with
        | some inside => max 1 (largest inside) :: factors (inside.length + 1) p
        | none => factors 0 p
      else factors 0 p

def exactProduct (text : List UInt8) : ℕ := (factors 0 text).prod

/-! ### Machine numbers -/

/-- The locals as whole numbers. -/
def Brace.exact (r : Brace) : RepeatGuard.Brace := ⟨r.bound.toNat, r.cur.toNat, r.counted, r.q⟩

/-- Below the limit a further digit does not wrap. -/
private theorem digit_toNat {cur : UInt64} (h : cur.toNat ≤ boundLimit) {d : ℕ} (hd : d ≤ 9) :
    (cur * 10 + UInt64.ofNat d).toNat = cur.toNat * 10 + d := by
  have hmul : (cur * 10).toNat = cur.toNat * 10 := by
    rw [UInt64.toNat_mul]
    unfold boundLimit at h
    exact Nat.mod_eq_of_lt (by simp; omega)
  rw [UInt64.toNat_add, hmul, UInt64.toNat_ofNat', Nat.mod_eq_of_lt (by omega : d < 2 ^ 64)]
  unfold boundLimit at h
  exact Nat.mod_eq_of_lt (by omega)

private theorem scanBrace_exact (bound cur : UInt64) (hbound : bound.toNat ≤ boundLimit)
    (hcur : cur.toNat ≤ boundLimit) (counted : Bool) (p : List UInt8) :
    (scanBrace bound cur counted p).map Brace.exact =
        RepeatGuard.scanBrace bound.toNat cur.toNat counted p ∧
      ∀ r, scanBrace bound cur counted p = some r →
        r.bound.toNat ≤ boundLimit ∧ r.cur.toNat ≤ boundLimit := by
  induction p generalizing bound cur counted with
  | nil => exact ⟨rfl, nofun⟩
  | cons b q ih =>
    rw [scanBrace, RepeatGuard.scanBrace]
    split
    · exact ⟨rfl, fun r hr => Option.some.inj hr ▸ ⟨hbound, hcur⟩⟩
    split
    · rename_i hdigit
      have hvalue := digit_toNat hcur (d := b.toNat - '0'.toNat)
        (by have := hdigit.2; simp only [Char.reduceToNat] at *; omega)
      have hcur' : (if cur * 10 + UInt64.ofNat (b.toNat - '0'.toNat) > 10000000 then 10000000
          else cur * 10 + UInt64.ofNat (b.toNat - '0'.toNat) : UInt64).toNat =
          if cur.toNat * 10 + (b.toNat - '0'.toNat) > boundLimit then boundLimit
          else cur.toNat * 10 + (b.toNat - '0'.toNat) := by
        rw [← hvalue, apply_ite UInt64.toNat]
        rfl
      dsimp only
      rw [← hcur']
      apply ih _ _ hbound
      rw [hcur']
      split <;> omega
    split
    · have hmax : (if cur > bound then cur else bound).toNat =
          if cur.toNat > bound.toNat then cur.toNat else bound.toNat := apply_ite UInt64.toNat _ _ _
      rw [← hmax]
      apply ih _ _ _ (Nat.zero_le _)
      rw [hmax]
      split <;> assumption
    · exact ⟨rfl, fun r hr => Option.some.inj hr ▸ ⟨hbound, hcur⟩⟩

/-- A product within the budget and a bound within the limit: the double is exact. -/
private theorem multiply_eq {product : ℕ} (hproduct : product ≤ fuzzMaxRepeatProduct)
    (bound : UInt64) (hbound : bound.toNat ≤ boundLimit) :
    multiply product bound =
      some (if bound.toNat > 1 then product * bound.toNat else product) := by
  have hmul : product * bound.toNat ≤ fuzzMaxRepeatProduct * boundLimit :=
    Nat.mul_le_mul hproduct hbound
  unfold fuzzMaxRepeatProduct boundLimit at *
  rw [multiply]
  by_cases h : bound > 1
  · rw [if_pos h, if_pos (show bound.toNat > 1 from h), nearest_of_lt (by omega)]
    exact nearest_of_lt (by omega)
  · rw [if_neg h, if_neg (show ¬ bound.toNat > 1 from h)]

/-- Wrapping and rounding change nothing. -/
private theorem productLoop_exact {product : ℕ} (h : product ≤ fuzzMaxRepeatProduct) (fuel : ℕ)
    (p : List UInt8) : productLoop fuel p product = RepeatGuard.productLoop fuel p product := by
  induction fuel generalizing p product with
  | zero => rfl
  | succ fuel ih =>
    cases p with
    | nil => rfl
    | cons b p =>
      rw [productLoop, RepeatGuard.productLoop]
      obtain ⟨hscan, hlimit⟩ := scanBrace_exact 0 0 (Nat.zero_le _) (Nat.zero_le _) false p
      rw [UInt64.toNat_zero] at hscan
      rw [← hscan, ih h]
      cases hr : scanBrace 0 0 false p with
      | none => rfl
      | some r =>
        obtain ⟨hbound, hcur⟩ := hlimit r hr
        have hmax : (if r.cur > r.bound then r.cur else r.bound).toNat =
            if r.cur.toNat > r.bound.toNat then r.cur.toNat else r.bound.toNat :=
          apply_ite UInt64.toNat _ _ _
        have hmultiply := multiply_eq h (if r.cur > r.bound then r.cur else r.bound)
          (by rw [hmax]; split <;> assumption)
        rw [hmax] at hmultiply
        simp only [Option.bind_eq_bind, Option.bind_some, Option.map_some, hmultiply]
        refine if_congr Iff.rfl rfl (if_congr Iff.rfl rfl (if_congr Iff.rfl rfl ?_))
        exact if_ctx_congr Iff.rfl (fun _ => rfl) fun hle => ih (Nat.not_lt.mp hle) _

/-! ### Groups -/

/-- The numbers of pieces, of the first of which `cur` has been read already. -/
private def numbersFrom (cur : ℕ) : List (List UInt8) → List ℕ
  | [] => []
  | digits :: pieces =>
      digits.foldl (fun v b => v * 10 + (b.toNat - '0'.toNat)) cur :: pieces.map number

private theorem numbersFrom_zero (pieces : List (List UInt8)) :
    numbersFrom 0 pieces = pieces.map number := by
  cases pieces <;> rfl

private theorem numbersFrom_modifyHead (cur : ℕ) (b : UInt8) {pieces : List (List UInt8)}
    (h : pieces ≠ []) : numbersFrom cur (pieces.modifyHead (List.cons b)) =
      numbersFrom (cur * 10 + (b.toNat - '0'.toNat)) pieces := by
  cases pieces with
  | nil => exact absurd rfl h
  | cons digits pieces => rfl

private theorem isDigit_iff {b : UInt8} :
    isDigit b = true ↔ '0'.toNat ≤ b.toNat ∧ b.toNat ≤ '9'.toNat := by
  rw [isDigit, Bool.and_eq_true, decide_eq_true_iff, decide_eq_true_iff]

private theorem isComma_iff {b : UInt8} : isComma b = true ↔ b.toNat = ','.toNat :=
  decide_eq_true_iff

/-- Inside a group the locals are what has been read, cut off at the limit. -/
private theorem scanBrace_inside (inside : List UInt8) (h : ∀ b ∈ inside, isInside b = true)
    (bound cur : ℕ) (counted : Bool) :
    ∃ bound' cur', max bound' cur' =
        max bound ((numbersFrom cur (inside.splitOnP isComma)).foldr max 0) ∧
      ∀ rest, RepeatGuard.scanBrace (min bound boundLimit) (min cur boundLimit) counted
          (inside ++ rest) =
        RepeatGuard.scanBrace (min bound' boundLimit) (min cur' boundLimit)
          (counted || inside.any isDigit) rest := by
  induction inside generalizing bound cur counted with
  | nil => exact ⟨bound, cur, by simp [numbersFrom], fun rest => by simp⟩
  | cons b inside ih =>
    obtain ⟨hb, hinside⟩ := List.forall_mem_cons.mp h
    rw [isInside, Bool.or_eq_true] at hb
    by_cases hdigit : isDigit b = true
    · have hrange := isDigit_iff.mp hdigit
      have hcomma : isComma b = false := by
        rw [Bool.eq_false_iff, Ne, isComma_iff]
        simp only [Char.reduceToNat] at *
        omega
      obtain ⟨bound', cur', hmax, hscan⟩ :=
        ih hinside bound (cur * 10 + (b.toNat - '0'.toNat)) true
      refine ⟨bound', cur', ?_, fun rest => ?_⟩
      · rw [hmax, List.splitOnP_cons_eq_if_modifyHead, hcomma, if_neg (by decide),
          numbersFrom_modifyHead _ _ (List.splitOnP_ne_nil _ _)]
      · have hcur : (if min cur boundLimit * 10 + (b.toNat - '0'.toNat) > boundLimit then boundLimit
            else min cur boundLimit * 10 + (b.toNat - '0'.toNat)) =
            min (cur * 10 + (b.toNat - '0'.toNat)) boundLimit := by
          split <;> omega
        rw [List.cons_append, RepeatGuard.scanBrace, if_neg, if_pos hrange]
        · dsimp only
          rw [hcur, hscan, List.any_cons, hdigit, Bool.true_or, Bool.or_true]
        · simp only [Char.reduceToNat] at *
          omega
    · have hcomma := hb.resolve_left hdigit
      obtain ⟨bound', cur', hmax, hscan⟩ := ih hinside (max bound cur) 0 counted
      refine ⟨bound', cur', ?_, fun rest => ?_⟩
      · rw [hmax, List.splitOnP_cons_eq_if_modifyHead, if_pos hcomma, numbersFrom_zero,
          numbersFrom, List.foldl_nil, List.foldr_cons, max_assoc]
      · have hbound : (if min cur boundLimit > min bound boundLimit then min cur boundLimit
            else min bound boundLimit) = min (max bound cur) boundLimit := by
          split <;> omega
        rw [isComma_iff] at hcomma
        rw [List.cons_append, RepeatGuard.scanBrace, if_neg, if_neg (mt isDigit_iff.mpr hdigit),
          if_pos hcomma, hbound, ← Nat.zero_min boundLimit, hscan, List.any_cons,
          Bool.eq_false_iff.mpr hdigit, Bool.false_or]
        rw [hcomma]
        decide

private theorem scanBrace_takeWhile (p : List UInt8) :
    ∃ bound cur, max bound cur = largest (p.takeWhile isInside) ∧
      RepeatGuard.scanBrace 0 0 false (p ++ [0]) =
        RepeatGuard.scanBrace (min bound boundLimit) (min cur boundLimit)
          ((p.takeWhile isInside).any isDigit) (p.dropWhile isInside ++ [0]) := by
  obtain ⟨bound, cur, hmax, hscan⟩ :=
    scanBrace_inside (p.takeWhile isInside) (fun b => List.mem_takeWhile_imp) 0 0 false
  refine ⟨bound, cur, ?_, ?_⟩
  · rw [hmax, numbersFrom_zero, Nat.zero_max, largest]
  · have hsplit : p ++ [0] = p.takeWhile isInside ++ (p.dropWhile isInside ++ [0]) := by
      rw [← List.append_assoc, List.takeWhile_append_dropWhile]
    rw [hsplit]
    simpa using hscan (p.dropWhile isInside ++ [0])

private theorem scanBrace_group {p inside : List UInt8} (h : groupAt p = some inside) :
    ∃ bound cur, max bound cur = min (largest inside) boundLimit ∧
      RepeatGuard.scanBrace 0 0 false (p ++ [0]) =
        some ⟨bound, cur, true, 0x7d :: (p.drop (inside.length + 1) ++ [0])⟩ := by
  rw [groupAt, Option.ite_none_right_eq_some] at h
  obtain ⟨⟨hdigit, hclose⟩, hinside⟩ := h
  obtain rfl := Option.some.inj hinside
  obtain ⟨tail, htail⟩ := List.head?_eq_some_iff.mp hclose
  obtain ⟨bound, cur, hmax, hscan⟩ := scanBrace_takeWhile p
  refine ⟨min bound boundLimit, min cur boundLimit, ?_, ?_⟩
  · rw [← hmax, ← min_max_distrib_right]
  · have hdrop : ∀ inside, p = inside ++ 0x7d :: tail → p.drop (inside.length + 1) = tail := by
      rintro inside rfl
      rw [List.drop_length_add_append, List.drop_succ_cons, List.drop_zero]
    rw [hscan, htail, hdigit, hdrop _ (by rw [← htail, List.takeWhile_append_dropWhile])]
    rfl

private theorem scanBrace_no_group {p : List UInt8} (h : groupAt p = none) :
    ∃ r, RepeatGuard.scanBrace 0 0 false (p ++ [0]) = some r ∧
      (r.counted = false ∨ r.q.head?.map UInt8.toNat ≠ some '}'.toNat) := by
  obtain ⟨bound, cur, -, hscan⟩ := scanBrace_takeWhile p
  rw [hscan]
  cases hstop : p.dropWhile isInside with
  | nil =>
    have hnul : some (0 : UInt8).toNat ≠ some '}'.toNat := by decide
    exact ⟨_, rfl, .inr hnul⟩
  | cons c tail =>
    rw [List.cons_append, RepeatGuard.scanBrace]
    split
    · -- the braces are closed, but there is no digit in them, or the text ends
      rename_i hend
      refine ⟨_, rfl, ?_⟩
      rcases hend with hend | hend
      · refine .inr fun hclose => ?_
        rw [List.head?_cons, Option.map_some, hend] at hclose
        exact absurd hclose (by decide)
      · refine .inl (Bool.eq_false_iff.mpr fun hdigit => ?_)
        have hc : c = 0x7d := UInt8.toNat_inj.mp hend
        rw [groupAt, if_pos ⟨hdigit, by rw [hstop, hc]; rfl⟩] at h
        cases h
    have houtside : isInside c = false := by
      have hnot := List.head?_dropWhile_not isInside p
      rwa [hstop] at hnot
    rw [isInside, Bool.or_eq_false_iff] at houtside
    rw [if_neg fun hdigit => absurd (isDigit_iff.mpr hdigit) (Bool.eq_false_iff.mp houtside.1),
      if_neg fun hcomma => absurd (isComma_iff.mpr hcomma) (Bool.eq_false_iff.mp houtside.2)]
    exact ⟨_, rfl, .inl rfl⟩

/-! ### The scan -/

private theorem prod_factors_pos (skip : ℕ) (p : List UInt8) : 0 < (factors skip p).prod := by
  induction p generalizing skip with
  | nil => cases skip <;> exact Nat.one_pos
  | cons b p ih =>
    cases skip with
    | succ skip => exact ih skip
    | zero =>
      rw [factors]
      split
      · split
        · rw [List.prod_cons]
          exact Nat.mul_pos (by omega) (ih _)
        · exact ih 0
      · exact ih 0

/-- From any place on, the guard tells whether the product with what is still to come is past
the budget. -/
private theorem scanFrom_eq (p : List UInt8) (hp : ∀ b ∈ p, b.toNat ≠ 0) (skip : ℕ) {product : ℕ}
    (hpos : 0 < product) (hle : product ≤ fuzzMaxRepeatProduct) :
    scanFrom (p.drop skip ++ [0]) product =
      some (decide (fuzzMaxRepeatProduct < product * (factors skip p).prod)) := by
  have hend : ∀ product ≤ fuzzMaxRepeatProduct, scanFrom [0] product =
      some (decide (fuzzMaxRepeatProduct < product * ([] : List ℕ).prod)) := by
    intro product hle
    rw [List.prod_nil, Nat.mul_one, decide_eq_false (by omega)]
    rfl
  induction p generalizing skip product with
  | nil =>
    rw [List.drop_nil, List.nil_append]
    cases skip <;> exact hend product hle
  | cons b p ih =>
    obtain ⟨h0, htail⟩ := List.forall_mem_cons.mp hp
    cases skip with
    | succ skip => exact ih htail skip hpos hle
    | zero =>
      rw [List.drop_zero, List.cons_append, factors]
      by_cases hb : b.toNat = '{'.toNat
      swap
      · rw [if_neg hb, RepeatGuard.scanFrom_cons h0 hb]
        exact ih htail 0 hpos hle
      obtain rfl : b = 0x7b := UInt8.toNat_inj.mp hb
      rw [if_pos hb]
      cases hgroup : groupAt p with
      | none =>
        obtain ⟨r, hscan, hfailed⟩ := scanBrace_no_group hgroup
        rw [RepeatGuard.scanFrom_uncounted hscan hfailed]
        exact ih htail 0 hpos hle
      | some inside =>
        obtain ⟨bound, cur, hmax, hscan⟩ := scanBrace_group hgroup
        have hrest := prod_factors_pos (inside.length + 1) p
        rw [RepeatGuard.scanFrom_counted hscan, hmax]
        dsimp only
        rw [List.prod_cons, ← Nat.mul_assoc]
        rcases Nat.lt_or_ge boundLimit (largest inside) with hlt | hge
        · -- cut off, but past the budget at once
          have hover := RepeatGuard.budget_lt_of_limit_le hpos hlt.le
          rw [if_pos (RepeatGuard.budget_lt_of_limit_le hpos (le_min hlt.le le_rfl)),
            decide_eq_true (hover.trans_le (Nat.le_mul_of_pos_right _ hrest))]
        · rw [min_eq_left hge]
          split
          · rename_i hover
            rw [decide_eq_true (hover.trans_le (Nat.le_mul_of_pos_right _ hrest))]
          · rename_i hunder
            exact ih htail (inside.length + 1) (Nat.mul_pos hpos (by omega)) (Nat.not_lt.mp hunder)

/-- The guard returns for every pattern. -/
theorem fuzzRepeatProductExcessive_returns {text : List UInt8} (h : 0 ∉ text) :
    ∃ excessive, fuzzRepeatProductExcessive (text ++ [0]) = some excessive := by
  have hnonzero : ∀ b ∈ text, b.toNat ≠ 0 := fun b hb h0 =>
    h ((UInt8.toNat_inj.mp h0 : b = 0) ▸ hb)
  rw [fuzzRepeatProductExcessive, productLoop_exact (by decide)]
  exact ⟨_, scanFrom_eq text hnonzero 0 Nat.one_pos (by decide)⟩

/-- The guard returns for every pattern, without reading past its end, and says whether the
exact product is past the budget. -/
theorem fuzzRepeatProductExcessive_exact (text : List UInt8) (h : ∀ b ∈ text, b ≠ 0) :
    fuzzRepeatProductExcessive (text ++ [0]) = some (decide (1000000 < exactProduct text)) := by
  have hnonzero : ∀ b ∈ text, b.toNat ≠ 0 := fun b hb h0 => h b hb (UInt8.toNat_inj.mp h0)
  have hexact := scanFrom_eq text hnonzero 0 Nat.one_pos (by decide)
  rw [List.drop_zero, Nat.one_mul] at hexact
  rw [fuzzRepeatProductExcessive, productLoop_exact (by decide)]
  exact hexact

/-- `{{,1001}{1000,}`: the first brace opens no group, and 1001 times 1000 is past the budget. -/
theorem fuzzRepeatProductExcessive_exact_stray : fuzzRepeatProductExcessive
    ([0x7b, 0x7b, 0x2c, 0x31, 0x30, 0x30, 0x31, 0x7d, 0x7b, 0x31, 0x30, 0x30, 0x30, 0x2c, 0x7d] ++
      [0]) = some true :=
  (fuzzRepeatProductExcessive_exact _ (by decide +kernel)).trans (by decide +kernel)

end ROssFuzz.RepeatGuardArithmetic
