/-!
# Binary floating point

The values of the 64-bit binary format as exact numbers, and the rounding of a decimal to the
nearest of them, ties to an even significand. There is no arithmetic here: such a value is only
read and shown.
-/

namespace Simian

set_option autoImplicit false

/-- A finite value is `significand * 2 ^ exponent`, with a sign of its own so that zero has two. -/
inductive Binary64 where
  | finite (negative : Bool) (significand : Nat) (exponent : Int)
  | infinite (negative : Bool)
  | nan
  deriving DecidableEq, Repr

namespace Binary64

/-- The least exponent of a finite value. -/
def minExponent : Int := -1074

def maxExponent : Int := 971

/-- Two to the power 53: every significand is below it, and only those of the least exponent are
below its half. -/
def significandLimit : Nat := 9007199254740992

/-- The integer nearest to `num / den`, the even one of two. -/
def roundHalfEven (num den : Nat) : Nat :=
  let q := num / den
  let r := num % den
  if 2 * r < den then q
  else if den < 2 * r then q + 1
  else if q % 2 = 0 then q else q + 1

/-- The pair whose quotient is `num / den / 2 ^ q`. -/
def scaled (num den : Nat) (q : Int) : Nat × Nat :=
  (num * Nat.pow 2 (-q).toNat, den * Nat.pow 2 q.toNat)

/-- The value nearest to `num / den` for positive `num` and `den`. -/
def ofRatio (negative : Bool) (num den : Nat) : Binary64 :=
  let guess : Int := (num.log2 : Int) - den.log2 - 53
  let low := scaled num den guess
  let fitted := if significandLimit ≤ low.1 / low.2 then guess + 1 else guess
  let q := max fitted minExponent
  let (n, d) := scaled num den q
  let m := roundHalfEven n d
  let (m, q) := if m = significandLimit then (significandLimit / 2, q + 1) else (m, q)
  if q > maxExponent then infinite negative else finite negative m q

/-- The value nearest to `digits * 10 ^ exponent`. Decimals far outside the range are settled by
their size alone, so that no great power is ever formed. -/
def ofDecimal (negative : Bool) (digits : Nat) (exponent : Int) : Binary64 :=
  let size := exponent + (Nat.toDigits 10 digits).length
  if digits = 0 ∨ size < -400 then finite negative 0 minExponent
  else if 400 < size then infinite negative
  else ofRatio negative (digits * Nat.pow 10 exponent.toNat) (Nat.pow 10 (-exponent).toNat)

end Binary64

end Simian
