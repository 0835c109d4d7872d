import Simian.Cursor
import Simian.Parser.Rules

/-!
# Parsing

The rule for expressions, which all others are given, and the parsing of whole sources: with
recovery, where the statements without a syntax error survive, or strictly, where one syntax
error refuses the source.
-/

namespace Simian

set_option autoImplicit false

namespace Parser

/-- Expressions nested at most `n` deep. -/
def expressionUpTo : Nat → ExprRule
  | 0, _ => throw .exhausted
  | n + 1, precedence => expression (expressionUpTo n) precedence

/-- Runs a rule with the rule for expressions of any depth that the input can have: every level
takes a token. -/
def complete {α : Type} (rule : ExprRule → Parser α) : Parser α :=
  fun s => rule (expressionUpTo s.bound) s

@[simp] theorem expressionUpTo_succ (n : Nat) (p : Precedence) :
    expressionUpTo (n + 1) p = expression (expressionUpTo n) p := rfl

end Parser

/-- What a source holds: the statements that survive and the syntax errors in their order. -/
structure Parsed where
  statements : List Node
  errors : List SyntaxError

def Parsed.program (p : Parsed) : Node := .program p.statements

def parseStream (input : TokenStream) : Except Stop Parsed :=
  match Parser.complete Parser.programStatements (ParserState.ofStream input) with
  | .ok statements s => .ok ⟨statements, s.errors.toList⟩
  | .error stop _ => .error stop

/-- Parses a source with recovery. -/
def parse (source : String) : Except Stop Parsed := parseStream (tokenize source)

/-- Why a source is refused. -/
inductive SourceFault where
  | stopped (stop : Stop)
  | errors (errors : List SyntaxError)
  deriving DecidableEq, Repr

def parseStrict (source : String) : Except SourceFault (List Node) :=
  match parse source with
  | .error stop => .error (.stopped stop)
  | .ok parsed =>
    if parsed.errors.isEmpty then .ok parsed.statements else .error (.errors parsed.errors)

end Simian
