/-!
# Signed 64-bit arithmetic

The range of the language's integers and the reduction into it. Values outside the range can be
stored; every sum, difference, product, quotient and negation is reduced.
-/

namespace Simian.Int64

set_option autoImplicit false

/-- Two to the power 64. -/
def modulus : Nat := 18446744073709551616

/-- The greatest integer of the range, one less than two to the power 63. -/
def max : Int := 9223372036854775807

def min : Int := -9223372036854775808

/-- The integer of the range that is congruent to `n` modulo `2 ^ 64`. -/
def wrap (n : Int) : Int := n.bmod modulus

/-- The quotient rounded toward zero, then reduced; nothing when the divisor is zero. -/
def divide? (a b : Int) : Option Int :=
  if b = 0 then none else some (wrap (a.tdiv b))

theorem wrap_bounds (n : Int) : min ≤ wrap n ∧ wrap n ≤ max := by
  have hl := @Int.le_bmod n modulus (by decide)
  have hu := @Int.bmod_lt n modulus (by decide)
  simp only [wrap, min, max, modulus] at *
  omega

theorem wrap_eq_self {n : Int} (hl : min ≤ n) (hu : n ≤ max) : wrap n = n := by
  apply Int.bmod_eq_of_le
  · simp only [min, modulus] at *; omega
  · simp only [max, modulus] at *; omega

@[simp] theorem wrap_wrap (n : Int) : wrap (wrap n) = wrap n :=
  wrap_eq_self (wrap_bounds n).1 (wrap_bounds n).2

theorem wrap_add_wrap (a b : Int) : wrap (wrap a + wrap b) = wrap (a + b) := by
  simp [wrap]

theorem wrap_sub_wrap (a b : Int) : wrap (wrap a - wrap b) = wrap (a - b) := by
  simp [wrap]

theorem wrap_mul_wrap (a b : Int) : wrap (wrap a * wrap b) = wrap (a * b) := by
  simp [wrap]

@[simp] theorem divide?_zero (a : Int) : divide? a 0 = none := rfl

theorem divide?_of_ne_zero {b : Int} (a : Int) (h : b ≠ 0) :
    divide? a b = some (wrap (a.tdiv b)) := by simp [divide?, h]

end Simian.Int64
