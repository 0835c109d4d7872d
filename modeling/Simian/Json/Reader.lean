import Simian.Assoc
import Simian.Json
import Simian.Text.Numeral

/-!
# Reading JSON

The value that a text holds, blanks around it allowed and nothing else. `NaN` and the infinities
are read as numbers, a control character inside a string is refused, and of members with one key
the last one counts, at the place of the first.
-/

namespace Simian

open Text
set_option autoImplicit false

inductive JsonFault where
  /-- The text is no JSON value. -/
  | malformed
  | numeral (fault : NumeralFault)
  deriving DecidableEq, Repr

namespace Json

/-- Reading, which the first fault ends. -/
abbrev Read := Except JsonFault

def skip (cs : List Char) : List Char := cs.dropWhile isBlank

def hexValue? (c : Char) : Option Nat :=
  if isDigit c then some (digitValue c)
  else if 'a' ≤ c ∧ c ≤ 'f' then some (c.toNat - 'a'.toNat + 10)
  else if 'A' ≤ c ∧ c ≤ 'F' then some (c.toNat - 'A'.toNat + 10)
  else none

/-- Four hexadecimal digits. -/
def readUnit : List Char → Read (Nat × List Char)
  | a :: b :: c :: d :: rest =>
    match hexValue? a, hexValue? b, hexValue? c, hexValue? d with
    | some a, some b, some c, some d => .ok (((a * 16 + b) * 16 + c) * 16 + d, rest)
    | _, _, _, _ => .error .malformed
  | _ => .error .malformed

/-- A code point written as one escape, or as two that are the halves of a pair. -/
def readCode (cs : List Char) : Read (Char × List Char) := do
  let (high, rest) ← readUnit cs
  if 0xd800 ≤ high ∧ high < 0xdc00 then
    match rest with
    | '\\' :: 'u' :: more =>
      let (low, after) ← readUnit more
      if 0xdc00 ≤ low ∧ low < 0xe000 then
        return (Char.ofNat (0x10000 + (high - 0xd800) * 0x400 + (low - 0xdc00)), after)
      else return ('\ufffd', rest)
    | _ => return ('\ufffd', rest)
  else if 0xdc00 ≤ high ∧ high < 0xe000 then return ('\ufffd', rest)
  else return (Char.ofNat high, rest)

def simpleEscape? : Char → Option Char
  | '\x22' => some '\x22' | '\\' => some '\\' | '/' => some '/'
  | 'b' => some '\x08' | 'f' => some '\x0c' | 'n' => some '\n' | 'r' => some '\r'
  | 't' => some '\t' | _ => none

/-- The characters of a string behind its opening mark, at most `fuel` of them, put in front of
`done` in reverse. -/
def readChars : Nat → List Char → List Char → Read (String × List Char)
  | 0, _, _ => .error .malformed
  | fuel + 1, done, cs =>
    match cs with
    | [] => .error .malformed
    | '\x22' :: rest => .ok (String.ofList done.reverse, rest)
    | '\\' :: 'u' :: rest => do
      let (c, after) ← readCode rest
      readChars fuel (c :: done) after
    | '\\' :: e :: rest =>
      match simpleEscape? e with
      | some c => readChars fuel (c :: done) rest
      | none => .error .malformed
    | c :: rest => if c.toNat < 0x20 then .error .malformed else readChars fuel (c :: done) rest

def readString (cs : List Char) : Read (String × List Char) := readChars (cs.length + 1) [] cs

/-- The digits of a fraction, if there is one; a point without digits is left unread. -/
def splitFraction : List Char → List Char × List Char
  | '.' :: rest =>
    let digits := rest.takeWhile isDigit
    if digits.isEmpty then ([], '.' :: rest) else (digits, rest.drop digits.length)
  | cs => ([], cs)

/-- The sign and digits of an exponent, if there is one; a mark without digits is left unread. -/
def splitExponent (cs : List Char) : Option Int × List Char :=
  match cs with
  | e :: rest =>
    if e = 'e' ∨ e = 'E' then
      let (negative, body) := match rest with
        | '-' :: more => (true, more)
        | '+' :: more => (false, more)
        | _ => (false, rest)
      let digits := body.takeWhile isDigit
      if digits.isEmpty then (none, cs)
      else
        let n : Int := digitsValue digits
        (some (if negative then -n else n), body.drop digits.length)
    else (none, cs)
  | [] => (none, [])

/-- A number behind its sign: no leading zero, then a fraction and an exponent, both optional. -/
def readNumber (negative : Bool) (cs : List Char) : Read (Json × List Char) :=
  let run := cs.takeWhile isDigit
  let units := if run.head? = some '0' then ['0'] else run
  if units.isEmpty then .error .malformed
  else
    let (fraction, rest) := splitFraction (cs.drop units.length)
    let (exponent, rest) := splitExponent rest
    if fraction.isEmpty && exponent.isNone then
      match readNumeral units with
      | .ok n => .ok (.int (if negative then -(n : Int) else n), rest)
      | .error fault => .error (.numeral fault)
    else
      let shift := exponent.getD 0 - fraction.length
      .ok (.float (.ofDecimal negative (digitsValue (units ++ fraction)) shift), rest)

/-- A constant spelled by `word`. -/
def readWord (word : String) (value : Json) (cs : List Char) : Read (Json × List Char) :=
  if word.toList.isPrefixOf cs then .ok (value, cs.drop word.length) else .error .malformed

mutual

/-- The value at the start of a text whose blanks are skipped, nested at most `fuel` deep. -/
def readValue : Nat → List Char → Read (Json × List Char)
  | 0, _ => .error .malformed
  | fuel + 1, cs =>
    match cs with
    | [] => .error .malformed
    | '\x22' :: rest => do
      let (s, after) ← readString rest
      return (.str s, after)
    | '[' :: rest =>
      match skip rest with
      | ']' :: after => .ok (.arr [], after)
      | inner => do
        let (items, after) ← readItems fuel inner
        return (.arr items, after)
    | '\x7b' :: rest =>
      match skip rest with
      | '\x7d' :: after => .ok (.obj [], after)
      | inner => do
        let (members, after) ← readMembers fuel [] inner
        return (.obj members, after)
    | 'n' :: _ => readWord "null" .null cs
    | 't' :: _ => readWord "true" (.bool true) cs
    | 'f' :: _ => readWord "false" (.bool false) cs
    | 'N' :: _ => readWord "NaN" (.float .nan) cs
    | 'I' :: _ => readWord "Infinity" (.float (.infinite false)) cs
    | '-' :: 'I' :: _ => readWord "-Infinity" (.float (.infinite true)) cs
    | '-' :: rest => readNumber true rest
    | _ => readNumber false cs

/-- The items of an array up to its closing bracket. -/
def readItems : Nat → List Char → Read (List Json × List Char)
  | 0, _ => .error .malformed
  | fuel + 1, cs => do
    let (item, rest) ← readValue fuel (skip cs)
    match skip rest with
    | ',' :: more =>
      let (items, after) ← readItems fuel more
      return (item :: items, after)
    | ']' :: after => return ([item], after)
    | _ => .error .malformed

/-- The members of an object up to its closing brace, added to those read before. -/
def readMembers :
    Nat → List (String × Json) → List Char → Read (List (String × Json) × List Char)
  | 0, _, _ => .error .malformed
  | fuel + 1, done, cs =>
    match skip cs with
    | '\x22' :: rest => do
      let (key, rest) ← readString rest
      match skip rest with
      | ':' :: rest =>
        let (value, rest) ← readValue fuel (skip rest)
        let done := Assoc.set key value done
        match skip rest with
        | ',' :: more => readMembers fuel done more
        | '\x7d' :: after => return (done, after)
        | _ => .error .malformed
      | _ => .error .malformed
    | _ => .error .malformed

end

/-- Every level and every item takes a character, which bounds the depth of reading. -/
def readList (cs : List Char) : Except JsonFault Json := do
  let (value, rest) ← readValue (2 * cs.length + 2) (skip cs)
  if (skip rest).isEmpty then return value else .error .malformed

def read (text : String) : Except JsonFault Json := readList text.toList

end Json

end Simian
