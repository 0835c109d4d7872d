import Simian.Text.Quoted

/-!
# Tokens

The kinds of token, the words reserved as keywords, and a token with its place in the source.
Two tokens are the same when kind and literal agree; the place is no part of a token's identity.
-/

namespace Simian

set_option autoImplicit false

inductive Kind where
  | illegal | eof
  | ident | int | string
  | assign | plus | minus | bang | asterisk | slash | lt | gt | eq | notEq
  | comma | semicolon | lparen | rparen | lbrace | rbrace | lbracket | rbracket
  | fnWord | letWord | ifWord | elseWord | trueWord | falseWord | returnWord
  deriving DecidableEq, Repr

namespace Kind

def all : List Kind :=
  [illegal, eof, ident, int, string, assign, plus, minus, bang, asterisk, slash, lt, gt, eq, notEq,
    comma, semicolon, lparen, rparen, lbrace, rbrace, lbracket, rbracket,
    fnWord, letWord, ifWord, elseWord, trueWord, falseWord, returnWord]

/-- The name by which an encoded token refers to its kind. -/
def name : Kind → String
  | illegal => "ILLEGAL" | eof => "EOF"
  | ident => "IDENT" | int => "INT" | string => "STRING"
  | assign => "ASSIGN" | plus => "PLUS" | minus => "MINUS" | bang => "BANG"
  | asterisk => "ASTERISK" | slash => "SLASH" | lt => "LT" | gt => "GT" | eq => "EQ"
  | notEq => "NOT_EQ"
  | comma => "COMMA" | semicolon => "SEMICOLON" | lparen => "LPAREN" | rparen => "RPAREN"
  | lbrace => "LBRACE" | rbrace => "RBRACE" | lbracket => "LBRACKET" | rbracket => "RBRACKET"
  | fnWord => "FUNCTION" | letWord => "LET" | ifWord => "IF" | elseWord => "ELSE"
  | trueWord => "TRUE" | falseWord => "FALSE" | returnWord => "RETURN"

/-- The text that messages and token listings show: operators and delimiters as written. -/
def text : Kind → String
  | assign => "=" | plus => "+" | minus => "-" | bang => "!" | asterisk => "*" | slash => "/"
  | lt => "<" | gt => ">" | eq => "==" | notEq => "!="
  | comma => "," | semicolon => ";" | lparen => "(" | rparen => ")"
  | lbrace => "\x7b" | rbrace => "\x7d" | lbracket => "[" | rbracket => "]"
  | k => k.name

def ofName? (s : String) : Option Kind := all.find? (fun k => k.name == s)

theorem mem_all (k : Kind) : k ∈ all := by cases k <;> decide

@[simp] theorem ofName?_name (k : Kind) : ofName? k.name = some k := by cases k <;> decide

theorem name_of_ofName? {s : String} {k : Kind} (h : ofName? s = some k) : k.name = s := by
  simpa using List.find?_some h

theorem ofName?_eq_some_iff {s : String} {k : Kind} : ofName? s = some k ↔ k.name = s :=
  ⟨name_of_ofName?, fun h => h ▸ ofName?_name k⟩

def isOpener (k : Kind) : Bool := k == lparen || k == lbrace || k == lbracket

def isCloser (k : Kind) : Bool := k == rparen || k == rbrace || k == rbracket

end Kind

def keywords : List (String × Kind) :=
  [("fn", .fnWord), ("let", .letWord), ("if", .ifWord), ("else", .elseWord),
    ("true", .trueWord), ("false", .falseWord), ("return", .returnWord)]

/-- The kind of a word: that of the keyword it spells, else an identifier. -/
def Kind.ofWord (word : String) : Kind := (keywords.lookup word).getD .ident

/-- A place in a source, counted from one. -/
structure Position where
  line : Int
  column : Int
  deriving DecidableEq, Repr

def Position.text (p : Position) : String := toString p.line ++ ":" ++ toString p.column

structure Token where
  kind : Kind
  literal : String
  position : Position
  deriving DecidableEq, Repr

namespace Token

/-- Agreement in kind and literal, wherever the tokens stand. -/
def same (a b : Token) : Bool := a.kind == b.kind && a.literal == b.literal

theorem same_iff (a b : Token) : a.same b = true ↔ a.kind = b.kind ∧ a.literal = b.literal := by
  simp [same]

@[simp] theorem same_self (a : Token) : a.same a = true := by simp [same]

def describe (t : Token) : String :=
  "Token(" ++ t.kind.name ++ ", " ++ Text.quoted t.literal ++ ")"

/-- The line that a token listing shows. -/
def listing (t : Token) : String :=
  "\x7bType:" ++ t.kind.text ++ " Literal:" ++ t.literal ++ "\x7d"

end Token

end Simian
