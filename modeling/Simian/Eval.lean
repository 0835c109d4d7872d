import Simian.Machine

/-!
# Evaluation

The meaning of syntax trees. Every construct evaluates its parts from left to right and stops at
the first signal, which is then its own value; a call unwraps a returned value. Only a call makes
a scope, so a `let` inside a block binds in the scope around it. How calls are carried out is a
parameter of evaluation; `callUpTo` supplies calls nested to a given depth, and a call beyond it
is a fault that `run` turns into an error value.
-/

namespace Simian

open Machine
set_option autoImplicit false

/-- Carries out a call of a value with arguments. -/
abbrev Caller := Value → List Value → EvalM Value

namespace Eval

/-- Continues with a value unless it is a signal. -/
def unlessSignal (v : Value) (k : EvalM Value) : EvalM Value := if v.isSignal then return v else k

/-- The value of a name: that of the nearest scope, else the built-in function of the name. -/
def identifier (scope : ScopeId) (name : String) : EvalM Value := do
  match ← lookup scope name with
  | some v => return v
  | none =>
    match Builtin.ofName? name with
    | some b => return .builtin b
    | none => return .error (.unknownIdentifier name)

def truthText (b : Bool) : String := if b then "True" else "False"

def argumentsText (args : List Value) : String := commaSeparated (Value.inspectAll args)

/-- Selects from an array. -/
def index (verbosity : Nat) (collection position : Value) : EvalM Value :=
  match Value.indexOperands collection position with
  | .error e => return .error e
  | .ok (es, i) => do
    note verbosity 3 fun _ => "index " ++ collection.inspect ++ "[" ++ toString i ++ "]"
    return Value.elementAt es i

section

variable (verbosity : Nat) (call : Caller)

mutual

/-- Evaluates a node in a scope. -/
def node (scope : ScopeId) : Node → EvalM Value
  | .program ss => do return (← statements scope .null ss).unwrapped
  | .letStatement _ name value => do
    let v ← node scope value
    unlessSignal v do
      bind scope name.name v
      note verbosity 2 fun _ => "let " ++ name.name ++ " = " ++ v.inspect
      return .null
  | .returnStatement _ none => return .returned .null
  | .returnStatement _ (some value) => do
    let v ← node scope value
    unlessSignal v (return .returned v)
  | .expressionStatement _ e => node scope e
  | .block _ ss => statements scope .null ss
  | .ident name => identifier scope name.name
  | .integer _ n => return .integer n
  | .string _ s => return .string s
  | .boolean _ b => return .boolean b
  | .array _ es => do
    match ← expressions scope es with
    | .error signal => return signal
    | .ok vs => return .array vs
  | .prefixOp _ op e => do
    let v ← node scope e
    unlessSignal v (return v.prefixOp op)
  | .infixOp _ op left right => do
    let l ← node scope left
    unlessSignal l do
      let r ← node scope right
      unlessSignal r (return Value.infixOp op l r)
  | .conditional _ condition consequence none => do
    let c ← node scope condition
    unlessSignal c do
      note verbosity 3 fun _ => "if condition " ++ c.inspect ++ " -> " ++ truthText c.isTruthy
      if c.isTruthy then node scope consequence else return .null
  | .conditional _ condition consequence (some alternative) => do
    let c ← node scope condition
    unlessSignal c do
      note verbosity 3 fun _ => "if condition " ++ c.inspect ++ " -> " ++ truthText c.isTruthy
      if c.isTruthy then node scope consequence else node scope alternative
  | .function _ parameters body => newFunction (parameters.map Ident.name) body scope
  | .call _ callee arguments => do
    let f ← node scope callee
    unlessSignal f do
      match ← expressions scope arguments with
      | .error signal => return signal
      | .ok args => call f args
  | .index _ collection position => do
    let c ← node scope collection
    unlessSignal c do
      let i ← node scope position
      unlessSignal i (index verbosity c i)
  | .datum tree => throw (.unexpected tree)

/-- The value of the last statement, or the first signal; `last` when there is no statement. -/
def statements (scope : ScopeId) (last : Value) : List Node → EvalM Value
  | [] => return last
  | s :: ss => do
    let v ← node scope s
    unlessSignal v (statements scope v ss)

/-- The values of expressions, or the first signal. -/
def expressions (scope : ScopeId) : List Node → EvalM (Except Value (List Value))
  | [] => return .ok []
  | e :: es => do
    let v ← node scope e
    if v.isSignal then return .error v
    else
      match ← expressions scope es with
      | .error signal => return .error signal
      | .ok vs => return .ok (v :: vs)

end

end

/-- Carries out a call, with `body` running the body of a function in its new scope. -/
def apply (verbosity : Nat) (body : ScopeId → Node → EvalM Value) : Caller
  | f@(.function _ parameters code scope), args =>
    if args.length ≠ parameters.length then
      return .error (.wrongArity parameters.length args.length)
    else do
      note verbosity 2 fun _ =>
        "call " ++ f.signature?.getD "" ++ " with (" ++ argumentsText args ++ ")"
      let inner ← newScope scope
      bindAll inner (parameters.zip args)
      return (← body inner code).unwrapped
  | .builtin b, args =>
    if b.accepts args.length then do
      note verbosity 2 fun _ =>
        "call builtin " ++ b.name ++ " with (" ++ argumentsText args ++ ")"
      print (b.printed args)
      return b.result args
    else return b.arityError args.length
  | v, _ => return .error (.notAFunction v.type)

/-- Runs the body of a function: the statements of a block. -/
def body (verbosity : Nat) (call : Caller) (scope : ScopeId) (code : Node) : EvalM Value :=
  match code.statements? with
  | some ss => statements verbosity call scope .null ss
  | none => throw (.noStatements code)

/-- Calls of functions nested at most `n` deep. -/
def callUpTo (verbosity : Nat) : Nat → Caller
  | 0 => apply verbosity fun _ _ => throw .tooDeep
  | n + 1 => apply verbosity (body verbosity (callUpTo verbosity n))

/-- Gives an error value for calls nested too deep; what was done until then stays. -/
def settleDepth (p : EvalM Value) : EvalM Value := fun m =>
  match p m with
  | .error .tooDeep m => .ok (.error .tooDeep) m
  | r => r

/-- Runs a program in a scope with calls nested at most `limit` deep. -/
def runUpTo (limit verbosity : Nat) (scope : ScopeId) (program : List Node) : EvalM Value := do
  note verbosity 1 fun _ => "run program with " ++ toString program.length ++ " statement(s)"
  let v ← settleDepth do
    return (← statements verbosity (callUpTo verbosity limit) scope .null program).unwrapped
  note verbosity 1 fun _ => "result " ++ v.type.name ++ ": " ++ v.inspect
  return v

/-- How deep calls may be nested. -/
def callLimit : Nat := 1600

/-- Runs a program in a scope. -/
def run (verbosity : Nat) (scope : ScopeId) (program : List Node) : EvalM Value :=
  runUpTo callLimit verbosity scope program

/-- Evaluates one node on its own. -/
def evaluate (verbosity : Nat) (scope : ScopeId) (n : Node) : EvalM Value :=
  node verbosity (callUpTo verbosity callLimit) scope n

/-- Calls a value with arguments. -/
def call (verbosity : Nat) : Caller := callUpTo verbosity callLimit

end Eval

end Simian
