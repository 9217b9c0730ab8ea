import Mathlib.Algebra.Order.Ring.Nat

/-!
# Whole numbers as doubles

A `double` with a whole value that is not negative is that value. Operations round to the
nearest double, ties to the even significand of 53 bits; none is infinity.
-/

namespace ROssFuzz.DoubleIntegers

/-- How far doubles of the size of `n` are apart. -/
def ulp (n : ℕ) : ℕ := 2 ^ (n.log2 - 52)

/-- The double nearest to `n`, if doubles had no greatest exponent. -/
def roundEven (n : ℕ) : ℕ :=
  if 2 * (n % ulp n) < ulp n ∨ 2 * (n % ulp n) = ulp n ∧ n / ulp n % 2 = 0 then
    n / ulp n * ulp n
  else (n / ulp n + 1) * ulp n

def nearest (n : ℕ) : Option ℕ :=
  if (roundEven n).log2 < 1024 then some (roundEven n) else none

def mul (a b : ℕ) : Option ℕ := nearest (a * b)

variable {n : ℕ}

/-- Whole numbers of at most 53 bits are doubles. -/
theorem nearest_of_lt (h : n < 0x20000000000000) : nearest n = some n := by
  have hlog : n.log2 ≤ 52 := by
    by_cases hn : n = 0
    · rw [hn]
      decide
    · exact Nat.lt_succ_iff.mp ((Nat.log2_lt hn).mpr h)
  have hulp : ulp n = 1 := by
    rw [ulp, Nat.sub_eq_zero_of_le hlog, Nat.pow_zero]
  have hround : roundEven n = n := by
    rw [roundEven, hulp, Nat.mod_one, if_pos (.inl (by decide)), Nat.div_one, Nat.mul_one]
  rw [nearest, hround, if_pos (by omega)]

/-- Past them, every other whole number is. -/
example : nearest 0x20000000000001 = some 0x20000000000000 := by decide

end ROssFuzz.DoubleIntegers
