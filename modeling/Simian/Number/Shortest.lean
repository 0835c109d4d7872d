import Simian.Number.Binary64

/-!
# Shortest decimals

The decimal that shows a binary value: the fewest significant digits that read back as it, and of
those the nearest to it. It is found by trying the two neighbours of the value on the grid of one,
two, three and more digits, in exact arithmetic. Values between `10 ^ -4` and `10 ^ 16` are
written without an exponent.
-/

namespace Simian.Binary64

set_option autoImplicit false

/-- The reals that round to a value, times a common denominator: `low` and `high` bound them and
`mid` is the value itself. -/
structure Interval where
  low : Nat
  mid : Nat
  high : Nat
  den : Nat
  /-- Whether the bounds themselves round to the value. -/
  closed : Bool

/-- The interval of `m * 2 ^ q`; below a power of two the neighbour is half as far. -/
def interval (m : Nat) (q : Int) : Interval :=
  let up := Nat.pow 2 q.toNat
  let below := if m = significandLimit / 2 ∧ minExponent < q then 1 else 2
  ⟨(4 * m - below) * up, 4 * m * up, (4 * m + 2) * up, 4 * Nat.pow 2 (-q).toNat, m % 2 == 0⟩

/-- Whether `c * 10 ^ e` lies in the interval. -/
def Interval.holds (i : Interval) (c : Nat) (e : Int) : Bool :=
  let v := c * Nat.pow 10 e.toNat * i.den
  let s := Nat.pow 10 (-e).toNat
  if i.closed then i.low * s ≤ v && v ≤ i.high * s else i.low * s < v && v < i.high * s

/-- The neighbour on the grid of `10 ^ e` that lies in the interval, the nearer one of two. -/
def Interval.pick (i : Interval) (e : Int) : Option Nat :=
  let num := i.mid * Nat.pow 10 (-e).toNat
  let den := i.den * Nat.pow 10 e.toNat
  let c := num / den
  match i.holds c e, i.holds (c + 1) e with
  | true, false => some c
  | false, true => some (c + 1)
  | false, false => none
  | true, true => some (roundHalfEven num den)

/-- The number of digits before the point of `num / den`, at most zero for values below one. -/
def magnitude (num den : Nat) : Int :=
  let est : Int := (Nat.toDigits 10 num).length - (Nat.toDigits 10 den).length
  if num * Nat.pow 10 (-est).toNat < den * Nat.pow 10 est.toNat then est else est + 1

/-- The first grid with a hit among the remaining ones: its digits and the power of ten. -/
def search (i : Interval) (size : Int) : Nat → Int → Nat × Int
  | 0, k => (i.mid / i.den, size - k)
  | n + 1, k =>
    match i.pick (size - k) with
    | some c => (c, size - k)
    | none => search i size n (k + 1)

/-- The digits of `m * 2 ^ q` and the place of the point behind the first digit's left edge. -/
def shortest (m : Nat) (q : Int) : List Char × Int :=
  let i := interval m q
  let (c, e) := search i (magnitude i.mid i.den) 17 1
  let digits := Nat.toDigits 10 c
  let kept := (digits.reverse.dropWhile (· == '0')).reverse
  (kept, digits.length + e)

def exponentText (e : Int) : String :=
  let digits := toString e.natAbs
  "e" ++ (if e < 0 then "-" else "+") ++ (if digits.length < 2 then "0" ++ digits else digits)

/-- Digits with the point at `point`: positional, or with an exponent when far from the units. -/
def layout (digits : List Char) (point : Int) : String :=
  let n := digits.length
  if -4 < point ∧ point ≤ 16 then
    if point ≤ 0 then "0." ++ String.ofList (List.replicate (-point).toNat '0' ++ digits)
    else
      let head := digits.take point.toNat ++ List.replicate (point.toNat - n) '0'
      let tail := digits.drop point.toNat
      String.ofList head ++ "." ++ (if tail.isEmpty then "0" else String.ofList tail)
  else
    let tail := digits.drop 1
    String.ofList (digits.take 1) ++ (if tail.isEmpty then "" else "." ++ String.ofList tail)
      ++ exponentText (point - 1)

def display : Binary64 → String
  | nan => "nan"
  | infinite negative => (if negative then "-" else "") ++ "inf"
  | finite negative m q =>
    let sign := if negative then "-" else ""
    if m = 0 then sign ++ "0.0"
    else
      let (digits, point) := shortest m q
      sign ++ layout digits point

end Simian.Binary64
