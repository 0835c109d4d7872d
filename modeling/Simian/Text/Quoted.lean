import Simian.Text.Printable

/-!
# Quoted text

The form in which a message shows a text: single quotes, or double quotes when the text holds a
single quote and no double one; a backslash before the mark and before itself; names for line
feed, carriage return and tab; code points in hexadecimal for all else that is not printable.
-/

namespace Simian.Text

set_option autoImplicit false

/-- The lowest `width` hexadecimal digits of `n`, the highest first. -/
def hex : Nat → Nat → List Char
  | 0, _ => []
  | width + 1, n => hex width (n / 16) ++ [Nat.digitChar (n % 16)]

@[simp] theorem hex_zero (n : Nat) : hex 0 n = [] := rfl

theorem hex_length (width n : Nat) : (hex width n).length = width := by
  induction width generalizing n with
  | zero => rfl
  | succ width ih => simp [hex, ih]

/-- A code point in the shortest of the three hexadecimal forms that can hold it. -/
def codeEscape (c : Char) : List Char :=
  if c.toNat < 0x100 then '\\' :: 'x' :: hex 2 c.toNat
  else if c.toNat < 0x10000 then '\\' :: 'u' :: hex 4 c.toNat
  else '\\' :: 'U' :: hex 8 c.toNat

/-- The quotation mark that surrounds `s`. -/
def quoteMark (s : List Char) : Char :=
  if s.contains '\x27' && !s.contains '\x22' then '\x22' else '\x27'

def escaped (mark c : Char) : List Char :=
  if c = mark ∨ c = '\\' then ['\\', c]
  else if c = '\n' then ['\\', 'n']
  else if c = '\r' then ['\\', 'r']
  else if c = '\t' then ['\\', 't']
  else if isPrintable c then [c]
  else codeEscape c

def quotedChars (s : List Char) : List Char :=
  quoteMark s :: s.flatMap (escaped (quoteMark s)) ++ [quoteMark s]

def quoted (s : String) : String := String.ofList (quotedChars s.toList)

end Simian.Text
