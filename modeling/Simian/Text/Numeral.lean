import Simian.Text.Classes
import Simian.Text.DecimalDigit

/-!
# Numerals

Reading decimal numbers. A numeral of more than `digitLimit` digits, leading zeros included, is
refused whatever its value. The general form of a numeral has a sign, digits of any script with
single underscores between them, and blanks around it; a plain run of ASCII digits is all that a
numeral of a source can be.
-/

namespace Simian.Text

set_option autoImplicit false

/-- The most digits that a numeral may have. -/
def digitLimit : Nat := 4300

inductive NumeralFault where
  /-- More digits than the limit; `count` is their number. -/
  | tooLong (count : Nat)
  /-- Something other than digits. -/
  | notNumeral (literal : String)
  deriving DecidableEq, Repr

def digitValue (c : Char) : Nat := c.toNat - '0'.toNat

def digitsValue (digits : List Char) : Nat := digits.foldl (fun n c => 10 * n + digitValue c) 0

def readNumeral (digits : List Char) : Except NumeralFault Nat :=
  if digits.isEmpty || !digits.all isDigit then .error (.notNumeral (String.ofList digits))
  else if digitLimit < digits.length then .error (.tooLong digits.length)
  else .ok (digitsValue digits)

/-- The blanks that may surround a numeral. -/
def isSpacing (c : Char) : Bool :=
  c == ' ' || c == '\t' || c == '\n' || c == '\r' || c == '\x0b' || c == '\x0c' ||
  [0x85, 0xa0, 0x1680, 0x2028, 0x2029, 0x202f, 0x205f, 0x3000].contains c.toNat ||
  (0x2000 ≤ c.toNat && c.toNat ≤ 0x200a)

/-- Whether underscores stand between digits only, given that a digit stands before `cs`. -/
def underscoresFit : List Char → Bool
  | [] => true
  | ['_'] => false
  | '_' :: '_' :: _ => false
  | _ :: cs => underscoresFit cs

/-- The sign and what stands behind it. -/
def splitSign : List Char → Bool × List Char
  | '-' :: cs => (true, cs)
  | '+' :: cs => (false, cs)
  | cs => (false, cs)

/-- A numeral in its general form. Its length is looked at before what stands behind it. -/
def readGeneral (literal : List Char) : Except NumeralFault Int :=
  let refusal : Except NumeralFault Int := .error (.notNumeral (String.ofList literal))
  let (negative, body) := splitSign (literal.dropWhile isSpacing)
  let run := body.takeWhile fun c => isDecimal c || c == '_'
  let digits := run.filterMap decimalValue?
  if digits.isEmpty || run.head? == some '_' || !underscoresFit run then refusal
  else if digitLimit < digits.length then .error (.tooLong digits.length)
  else if !(body.drop run.length).all isSpacing then refusal
  else
    let n : Nat := digits.foldl (fun n d => 10 * n + d) 0
    .ok (if negative then -(Int.ofNat n) else Int.ofNat n)

/-- The integer that a literal spells. -/
def readInteger (literal : List Char) : Except NumeralFault Int :=
  if !literal.isEmpty && literal.all isDigit then
    match readNumeral literal with
    | .ok n => .ok n
    | .error fault => .error fault
  else readGeneral literal

theorem readNumeral_eq_ok {digits : List Char} (hne : digits ≠ [])
    (hd : ∀ c ∈ digits, isDigit c = true) (hl : digits.length ≤ digitLimit) :
    readNumeral digits = .ok (digitsValue digits) := by
  have h : digits.all isDigit = true := List.all_eq_true.mpr hd
  simp [readNumeral, hne, h, Nat.not_lt.mpr hl]

theorem readInteger_of_digits {digits : List Char} (hne : digits ≠ [])
    (hd : ∀ c ∈ digits, isDigit c = true) (hl : digits.length ≤ digitLimit) :
    readInteger digits = .ok (digitsValue digits : Nat) := by
  have h : digits.all isDigit = true := List.all_eq_true.mpr hd
  simp [readInteger, hne, h, readNumeral_eq_ok hne hd hl]

theorem readInteger_of_tooLong {digits : List Char} (hd : ∀ c ∈ digits, isDigit c = true)
    (hl : digitLimit < digits.length) : readInteger digits = .error (.tooLong digits.length) := by
  have h : digits.all isDigit = true := List.all_eq_true.mpr hd
  have hne : digits ≠ [] := by
    rintro rfl
    exact absurd hl (by decide)
  simp [readInteger, readNumeral, hne, h, hl]

end Simian.Text
