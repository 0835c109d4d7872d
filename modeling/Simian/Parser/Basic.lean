import Simian.Node
import Simian.Text.Numeral
import Simian.Token.Stream

/-!
# Parser states

The state in which a rule runs: the tokens from the current one on, how deep the current token is
in brackets, and the syntax errors recorded so far. A rule that meets a syntax error records it
and is abandoned; the state stays as it was at that point. Steps are written out on the state, so
each of them unfolds by definition.
-/

namespace Simian

open Text
set_option autoImplicit false

/-- What is wrong with a token. -/
inductive SyntaxCause where
  /-- Another kind was wanted in its place. -/
  | expected (wanted : Kind)
  /-- It is illegal. -/
  | illegal
  /-- No expression starts with it. -/
  | noPrefixRule
  /-- It is a numeral beyond the range of integers. -/
  | integerRange
  deriving DecidableEq, Repr

/-- A token and what is wrong with it. -/
structure SyntaxError where
  cause : SyntaxCause
  token : Token
  deriving DecidableEq, Repr

namespace SyntaxError

def reason (e : SyntaxError) : String :=
  match e.cause with
  | .expected wanted =>
    "expected next token to be " ++ wanted.text ++ ", got " ++ e.token.kind.text ++ " instead"
  | .illegal => "illegal token " ++ e.token.literal
  | .noPrefixRule => "no prefix parse function for " ++ e.token.kind.text ++ " found"
  | .integerRange => "could not parse " ++ e.token.literal ++ " as integer"

def message (e : SyntaxError) : String := e.reason ++ " at " ++ e.token.position.text

end SyntaxError

/-- How tightly an operator binds. -/
inductive Precedence where
  | lowest | equality | comparison | sum | product | unary | call
  deriving DecidableEq, Repr

namespace Precedence

def all : List Precedence := [lowest, equality, comparison, sum, product, unary, call]

def rank : Precedence → Nat
  | lowest => 1
  | equality => 2
  | comparison => 3
  | sum => 4
  | product => 5
  | unary => 6
  | call => 7

def name : Precedence → String
  | lowest => "LOWEST"
  | equality => "EQUALS"
  | comparison => "LESSGREATER"
  | sum => "SUM"
  | product => "PRODUCT"
  | unary => "PREFIX"
  | call => "CALL"

def ofName? (s : String) : Option Precedence := all.find? (fun p => p.name == s)

/-- The precedence with which a token of kind `k` continues an expression. -/
def ofKind : Kind → Precedence
  | .eq | .notEq => equality
  | .lt | .gt => comparison
  | .plus | .minus => sum
  | .asterisk | .slash => product
  | .lparen | .lbracket => call
  | _ => lowest

theorem rank_injective {p q : Precedence} (h : p.rank = q.rank) : p = q := by
  cases p <;> cases q <;> simp_all [rank]

end Precedence

structure ParserState where
  input : TokenStream
  /-- The bracket depth of the current token, never below zero. -/
  depth : Nat
  errors : Array SyntaxError
  deriving Repr

/-- Why a rule ended without a result. -/
inductive Stop where
  /-- A syntax error was recorded. -/
  | abandoned
  /-- A numeral could not be read at all. -/
  | numeral (fault : NumeralFault)
  /-- The bound on steps was reached, which no bound computed from the input is. -/
  | exhausted
  deriving DecidableEq, Repr

abbrev Parser := EStateM Stop ParserState

namespace ParserState

def ofStream (input : TokenStream) : ParserState := ⟨input, 0, #[]⟩

/-- The depth behind a token of kind `k`. -/
def depthAfter (depth : Nat) (k : Kind) : Nat :=
  if k.isOpener then depth + 1 else if k.isCloser then depth - 1 else depth

def advance (s : ParserState) : ParserState :=
  ⟨s.input.next, depthAfter s.depth s.input.cur.kind, s.errors⟩

def curIs (k : Kind) (s : ParserState) : Bool := s.input.cur.kind == k

def peekIs (k : Kind) (s : ParserState) : Bool := s.input.peek.kind == k

/-- A number of steps that no loop or nesting over the rest of the input exceeds. -/
def bound (s : ParserState) : Nat := s.input.tokens.length + 1

@[simp] theorem advance_input (s : ParserState) : s.advance.input = s.input.next := rfl

@[simp] theorem advance_errors (s : ParserState) : s.advance.errors = s.errors := rfl

end ParserState

namespace Parser

open ParserState

variable {α : Type}

def cur : Parser Token := fun s => .ok s.input.cur s

def peek : Parser Token := fun s => .ok s.input.peek s

def next : Parser Unit := fun s => .ok () s.advance

/-- Records a syntax error and abandons the rule. -/
def fail (cause : SyntaxCause) (token : Token) : Parser α :=
  fun s => .error .abandoned { s with errors := s.errors.push ⟨cause, token⟩ }

/-- Moves to the next token if it is of kind `k`. -/
def expect (k : Kind) : Parser Unit := fun s =>
  if s.peekIs k then next s else fail (.expected k) s.input.peek s

/-- Moves to the next token if it is of kind `k` and stays otherwise. -/
def skipOptional (k : Kind) : Parser Unit := fun s => if s.peekIs k then next s else .ok () s

/-- Repeats `body` while the state satisfies `again`, at most `n` times. -/
def repeatWhile (again : ParserState → Bool) (body : α → Parser α) : Nat → α → Parser α
  | 0, a => fun s => if again s then .error .exhausted s else .ok a s
  | n + 1, a => fun s =>
    if again s then (body a >>= fun b => repeatWhile again body n b) s else .ok a s

/-- Repeats `body` while the state satisfies `again`; every round takes a token. -/
def loop (again : ParserState → Bool) (body : α → Parser α) (a : α) : Parser α :=
  fun s => repeatWhile again body s.bound a s

/-- Runs a rule and gives nothing if it is abandoned, in the state in which that happened. -/
def recovering (p : Parser α) : Parser (Option α) := fun s =>
  match p s with
  | .ok a s => .ok (some a) s
  | .error .abandoned s => .ok none s
  | .error stop s => .error stop s

def resetDepth : Parser Unit := fun s => .ok () { s with depth := 0 }

@[simp] theorem next_apply (s : ParserState) : next s = .ok () s.advance := rfl

@[simp] theorem cur_apply (s : ParserState) : cur s = .ok s.input.cur s := rfl

@[simp] theorem peek_apply (s : ParserState) : peek s = .ok s.input.peek s := rfl

theorem expect_of_peekIs {k : Kind} {s : ParserState} (h : s.peekIs k = true) :
    expect k s = .ok () s.advance := by
  simp [expect, h]

theorem expect_of_not_peekIs {k : Kind} {s : ParserState} (h : s.peekIs k = false) :
    expect k s =
      .error .abandoned { s with errors := s.errors.push ⟨.expected k, s.input.peek⟩ } := by
  simp [expect, h, fail]

theorem loop_of_not_again {again : ParserState → Bool} {body : α → Parser α} {a : α}
    {s : ParserState} (h : again s = false) : loop again body a s = .ok a s := by
  simp [loop, bound, repeatWhile, h]

/-- Skips to behind the next semicolon at bracket depth zero, or to the end. -/
def synchronize : Parser Unit := do
  loop (fun s => !s.curIs .eof && !(s.curIs .semicolon && s.depth == 0)) (fun _ => next) ()
  fun s => if s.curIs .eof then .ok () s else next s

end Parser

end Simian
