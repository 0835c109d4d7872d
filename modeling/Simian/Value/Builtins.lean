import Simian.Value

/-!
# Built-in functions

What the built-in functions give for their arguments, and what `puts` prints. None of them
changes an array: `push` and `rest` make new ones.
-/

namespace Simian.Builtin

set_option autoImplicit false

/-- Whether a number of arguments is right. -/
def accepts (b : Builtin) (given : Nat) : Bool :=
  match b.arity? with
  | some wanted => given == wanted
  | none => true

def arityError (b : Builtin) (given : Nat) : Value :=
  .error (.wrongArity (b.arity?.getD 0) given)

/-- Applies `f` to the elements of an array. -/
def onArray (b : Builtin) (f : List Value → Value) : Value → Value
  | .array es => f es
  | v => .error (.notAnArray b.name v.type)

def length : Value → Value
  | .string s => .integer s.length
  | .array es => .integer es.length
  | v => .error (.noLength v.type)

def result : Builtin → List Value → Value
  | len, [v] => length v
  | first, [v] => onArray first (fun es => es.head?.getD .null) v
  | last, [v] => onArray last (fun es => es.getLast?.getD .null) v
  | rest, [v] => onArray rest (fun es => if es.isEmpty then .null else .array es.tail) v
  | push, [v, item] => onArray push (fun es => .array (es ++ [item])) v
  | puts, _ => .null
  | b, args => b.arityError args.length

/-- The text that a call prints: for `puts` each argument on a line of its own. -/
def printed : Builtin → List Value → String
  | puts, args => String.join (args.map fun v => v.inspect ++ "\n")
  | _, _ => ""

end Simian.Builtin
