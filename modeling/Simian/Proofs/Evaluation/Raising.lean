import Simian.Eval

/-!
# Evaluation with exceptions

The meaning that signals are to give to programs. A fault and a `return` each raise an exception.
No construct looks at what its parts give: what is raised in one of them ends it. A call catches
what the `return`s of its body raise, and a run catches everything that is raised. What was
printed and bound until then stays.
-/

namespace Simian.Raising

open Machine
set_option autoImplicit false

/-- What ends an evaluation. -/
inductive Raised where
  /-- A `return`, with its value. -/
  | returned (value : Value)
  /-- A fault of the program, with its error. -/
  | error (e : RuntimeError)
  | fault (fault : EvalFault)

abbrev RaiseM := EStateM Raised Machine

/-- An action on the machine, which raises nothing of its own. -/
def act {α : Type} (p : EvalM α) : RaiseM α := fun m =>
  match p m with
  | .ok a m => .ok a m
  | .error fault m => .error (.fault fault) m

instance : MonadLift EvalM RaiseM := ⟨act⟩

/-- The result of an operation; an error is raised. -/
def settle : Value → RaiseM Value
  | .error e => throw (.error e)
  | v => return v

def catchReturned (p : RaiseM Value) : RaiseM Value := fun m =>
  match p m with
  | .error (.returned v) m => .ok v m
  | r => r

/-- Catches what a program raises. -/
def catchAll (p : RaiseM Value) : EvalM Value := fun m =>
  match p m with
  | .ok v m => .ok v m
  | .error (.returned v) m => .ok v m
  | .error (.error e) m => .ok (.error e) m
  | .error (.fault fault) m => .error fault m

def identifier (scope : ScopeId) (name : String) : RaiseM Value := do
  match ← lookup scope name with
  | some v => return v
  | none =>
    match Builtin.ofName? name with
    | some b => return .builtin b
    | none => throw (.error (.unknownIdentifier name))

def index (verbosity : Nat) (collection position : Value) : RaiseM Value :=
  match Value.indexOperands collection position with
  | .error e => throw (.error e)
  | .ok (es, i) => do
    note verbosity 3 fun _ => "index " ++ collection.inspect ++ "[" ++ toString i ++ "]"
    return Value.elementAt es i

section

variable (verbosity : Nat) (call : Value → List Value → RaiseM Value)

mutual

/-- Evaluates a node in a scope. A program inside a program is left like a call. -/
def node (scope : ScopeId) : Node → RaiseM Value
  | .program ss => catchReturned (statements scope .null ss)
  | .letStatement _ name value => do
    let v ← node scope value
    bind scope name.name v
    note verbosity 2 fun _ => "let " ++ name.name ++ " = " ++ v.inspect
    return .null
  | .returnStatement _ none => throw (.returned .null)
  | .returnStatement _ (some value) => do
    let v ← node scope value
    throw (.returned v)
  | .expressionStatement _ e => node scope e
  | .block _ ss => statements scope .null ss
  | .ident name => identifier scope name.name
  | .integer _ n => return .integer n
  | .string _ s => return .string s
  | .boolean _ b => return .boolean b
  | .array _ es => do
    let vs ← expressions scope es
    return .array vs
  | .prefixOp _ op e => do
    let v ← node scope e
    settle (v.prefixOp op)
  | .infixOp _ op left right => do
    let l ← node scope left
    let r ← node scope right
    settle (Value.infixOp op l r)
  | .conditional _ condition consequence none => do
    let c ← node scope condition
    note verbosity 3 fun _ => "if condition " ++ c.inspect ++ " -> " ++ Eval.truthText c.isTruthy
    if c.isTruthy then node scope consequence else return .null
  | .conditional _ condition consequence (some alternative) => do
    let c ← node scope condition
    note verbosity 3 fun _ => "if condition " ++ c.inspect ++ " -> " ++ Eval.truthText c.isTruthy
    if c.isTruthy then node scope consequence else node scope alternative
  | .function _ parameters body => newFunction (parameters.map Ident.name) body scope
  | .call _ callee arguments => do
    let f ← node scope callee
    let args ← expressions scope arguments
    call f args
  | .index _ collection position => do
    let c ← node scope collection
    let i ← node scope position
    index verbosity c i
  | .datum tree => throw (.fault (.unexpected tree))

def statements (scope : ScopeId) (last : Value) : List Node → RaiseM Value
  | [] => return last
  | s :: ss => do
    let v ← node scope s
    statements scope v ss

def expressions (scope : ScopeId) : List Node → RaiseM (List Value)
  | [] => return []
  | e :: es => do
    let v ← node scope e
    let vs ← expressions scope es
    return v :: vs

end

end

/-- Carries out a call, with `body` running the body of a function in its new scope. -/
def apply (verbosity : Nat) (body : ScopeId → Node → RaiseM Value) :
    Value → List Value → RaiseM Value
  | f@(.function _ parameters code scope), args =>
    if args.length ≠ parameters.length then
      throw (.error (.wrongArity parameters.length args.length))
    else do
      note verbosity 2 fun _ =>
        "call " ++ f.signature?.getD "" ++ " with (" ++ Eval.argumentsText args ++ ")"
      let inner ← newScope scope
      bindAll inner (parameters.zip args)
      catchReturned (body inner code)
  | .builtin b, args =>
    if b.accepts args.length then do
      note verbosity 2 fun _ =>
        "call builtin " ++ b.name ++ " with (" ++ Eval.argumentsText args ++ ")"
      print (b.printed args)
      settle (b.result args)
    else settle (b.arityError args.length)
  | v, _ => throw (.error (.notAFunction v.type))

def body (verbosity : Nat) (call : Value → List Value → RaiseM Value) (scope : ScopeId)
    (code : Node) : RaiseM Value :=
  match code.statements? with
  | some ss => statements verbosity call scope .null ss
  | none => throw (.fault (.noStatements code))

/-- Calls of functions nested at most `n` deep; one beyond that raises an error. -/
def callUpTo (verbosity : Nat) : Nat → Value → List Value → RaiseM Value
  | 0 => apply verbosity fun _ _ => throw (.error .tooDeep)
  | n + 1 => apply verbosity (body verbosity (callUpTo verbosity n))

def runUpTo (limit verbosity : Nat) (scope : ScopeId) (program : List Node) : EvalM Value := do
  note verbosity 1 fun _ => "run program with " ++ toString program.length ++ " statement(s)"
  let v ← catchAll (statements verbosity (callUpTo verbosity limit) scope .null program)
  note verbosity 1 fun _ => "result " ++ v.type.name ++ ": " ++ v.inspect
  return v

end Simian.Raising
