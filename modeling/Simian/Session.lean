import Simian.Fault
import Simian.Text.Lines

/-!
# Interactive sessions

A session reads lines, each a program of its own, and evaluates them one after the other in the
global scope. Prompts, results and printed text form one stream, the output of the machine. A line
with a syntax error or without a statement evaluates nothing. A session can also just list the
tokens of its lines.
-/

namespace Simian

set_option autoImplicit false

abbrev SessionM := EStateM Fault Machine

namespace Session

def prompt : String := ">> "

def print (text : String) : SessionM Unit := fun m => .ok () { m with output := m.output ++ text }

def ofEval {α : Type} (p : EvalM α) : SessionM α := fun m =>
  match p m with
  | .ok a m => .ok a m
  | .error fault m => .error (.eval fault) m

/-- The listing of syntax errors, a line for each. -/
def errorReport (errors : List SyntaxError) : String :=
  "parser errors:\n" ++ String.join (errors.map fun e => "\t" ++ e.message ++ "\n")

def isLet : Node → Bool
  | .letStatement .. => true
  | _ => false

/-- Whether the result of a program is kept silent: it ended in a `let` that was carried out. -/
def isSilent (program : List Node) (result : Value) : Bool :=
  (match program.getLast? with
    | some s => isLet s
    | none => false) &&
  match result with
  | .error _ => false
  | _ => true

/-- Evaluates a line and prints its result. -/
def evalLine (verbosity : Nat) (line : String) : SessionM Unit :=
  match parse line with
  | .error stop => throw (.source (.stopped stop))
  | .ok parsed =>
    if !parsed.errors.isEmpty then print (errorReport parsed.errors)
    else if parsed.statements.isEmpty then return ()
    else do
      let v ← ofEval (Eval.run verbosity Store.globalScope parsed.statements)
      if isSilent parsed.statements v then return () else print (v.inspect ++ "\n")

def tokenListing (tokens : List Token) : String :=
  String.join (tokens.map fun t => t.listing ++ "\n")

/-- Lists the tokens of a line, its end token left out. -/
def listLine (line : String) : SessionM Unit := print (tokenListing (tokenize line).tokens)

def line (tokensOnly : Bool) (verbosity : Nat) (text : String) : SessionM Unit :=
  if tokensOnly then listLine text else evalLine verbosity text

/-- Answers lines until there are no more, with a prompt before each and one at the end. -/
def loop (tokensOnly : Bool) (verbosity : Nat) : List String → SessionM Unit
  | [] => print prompt
  | text :: rest => do
    print prompt
    line tokensOnly verbosity text
    loop tokensOnly verbosity rest

/-- A session over a whole input. -/
def run (tokensOnly : Bool) (verbosity : Nat) (input : String) : SessionM Unit :=
  loop tokensOnly verbosity (Text.lines input)

end Session

end Simian
