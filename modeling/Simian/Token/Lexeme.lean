import Simian.Text.Classes
import Simian.Token

/-!
# Lexemes

Which token starts at a character that is no blank: the longest word or number, a string up to
its closing mark, or an operator. A lexeme says how many characters of the source it takes, which
is more than its literal has when that leaves out the quotation marks.
-/

namespace Simian

open Text
set_option autoImplicit false

/-- A token without its place, and the number of characters that it takes from the source. -/
structure Lexeme where
  kind : Kind
  literal : List Char
  width : Nat
  deriving DecidableEq, Repr

namespace Lexeme

/-- The operators and delimiters of one character. -/
def single : Char → Option Kind
  | '=' => some .assign | '+' => some .plus | '-' => some .minus | '!' => some .bang
  | '*' => some .asterisk | '/' => some .slash | '<' => some .lt | '>' => some .gt
  | ',' => some .comma | ';' => some .semicolon | '(' => some .lparen | ')' => some .rparen
  | '\x7b' => some .lbrace | '\x7d' => some .rbrace | '[' => some .lbracket | ']' => some .rbracket
  | _ => none

/-- The operators of two characters, which win over those of one. -/
def pair : Char → Option Char → Option Kind
  | '=', some '=' => some .eq
  | '!', some '=' => some .notEq
  | _, _ => none

def word (letters : List Char) : Lexeme :=
  ⟨Kind.ofWord (String.ofList letters), letters, letters.length⟩

def number (digits : List Char) : Lexeme := ⟨.int, digits, digits.length⟩

/-- A string behind its opening mark. One that is never closed is illegal and takes the whole
rest of the source, its opening mark included. -/
def quotation (rest : List Char) : Lexeme :=
  let body := rest.takeWhile (· != '\x22')
  if body.length < rest.length then ⟨.string, body, body.length + 2⟩
  else ⟨.illegal, '\x22' :: body, body.length + 1⟩

def operator (c : Char) (rest : List Char) : Lexeme :=
  match pair c rest.head? with
  | some k => ⟨k, c :: rest.take 1, 2⟩
  | none => ⟨(single c).getD .illegal, [c], 1⟩

/-- The lexeme at the start of `c :: rest`. -/
def first (c : Char) (rest : List Char) : Lexeme :=
  if isLetter c then word (c :: rest.takeWhile isLetter)
  else if isDigit c then number (c :: rest.takeWhile isDigit)
  else if c = '\x22' then quotation rest
  else operator c rest

theorem quotation_width_pos (rest : List Char) : 0 < (quotation rest).width := by
  simp only [quotation]; split <;> simp

theorem operator_width_pos (c : Char) (rest : List Char) : 0 < (operator c rest).width := by
  unfold operator; split <;> simp

/-- Every lexeme takes at least one character. -/
theorem first_width_pos (c : Char) (rest : List Char) : 0 < (first c rest).width := by
  unfold first
  split
  · simp [word]
  · split
    · simp [number]
    · split
      · exact quotation_width_pos rest
      · exact operator_width_pos c rest

end Lexeme

end Simian
