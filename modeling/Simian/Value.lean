import Simian.Node.Render
import Simian.Value.Error

/-!
# Run-time values

What evaluation produces. A function knows the scope in which it was made and has a number of its
own, by which it differs from every other function. Errors and returned values are signals: they
end the evaluation of what encloses them and are never kept in a scope, an array or an argument
list.
-/

namespace Simian

set_option autoImplicit false

/-- The number of a scope in the store. -/
abbrev ScopeId := Nat

inductive Builtin where
  | len | first | last | rest | push | puts
  deriving DecidableEq, Repr

namespace Builtin

def all : List Builtin := [len, first, last, rest, push, puts]

def name : Builtin → String
  | len => "len"
  | first => "first"
  | last => "last"
  | rest => "rest"
  | push => "push"
  | puts => "puts"

/-- The number of arguments, when it is fixed. -/
def arity? : Builtin → Option Nat
  | len | first | last | rest => some 1
  | push => some 2
  | puts => none

def ofName? (s : String) : Option Builtin := all.find? (fun b => b.name == s)

@[simp] theorem ofName?_name (b : Builtin) : ofName? b.name = some b := by cases b <;> decide

end Builtin

inductive Value where
  | integer (n : Int)
  | boolean (b : Bool)
  | null
  | string (s : String)
  | array (elements : List Value)
  | function (id : Nat) (parameters : List String) (body : Node) (scope : ScopeId)
  | builtin (b : Builtin)
  | returned (value : Value)
  | error (e : RuntimeError)

namespace Value

def type : Value → ValueType
  | integer _ => .integer
  | boolean _ => .boolean
  | null => .null
  | string _ => .string
  | array _ => .array
  | function .. => .function
  | builtin _ => .builtin
  | returned _ => .returned
  | error _ => .error

mutual

/-- The text that shows a value to the user. -/
def inspect : Value → String
  | integer n => toString n
  | boolean b => if b then "true" else "false"
  | null => "null"
  | string s => s
  | array es => "[" ++ commaSeparated (inspectAll es) ++ "]"
  | function _ ps body _ => "fn(" ++ commaSeparated ps ++ ") " ++ body.render
  | builtin b => "builtin function " ++ b.name
  | returned v => v.inspect
  | error e => "ERROR: " ++ e.message

def inspectAll : List Value → List String
  | [] => []
  | v :: vs => v.inspect :: inspectAll vs

end

theorem inspectAll_eq_map (vs : List Value) : inspectAll vs = vs.map inspect := by
  induction vs with
  | nil => rfl
  | cons v vs ih => simp [inspectAll, ih]

/-- The short form of a function: its parameters without its body. -/
def signature? : Value → Option String
  | function _ ps _ _ => some ("<function fn(" ++ commaSeparated ps ++ ")>")
  | builtin b => some ("<builtin " ++ b.name ++ ">")
  | null => some "NULL"
  | _ => none

/-- Whether a value ends the evaluation of what encloses it. -/
def isSignal : Value → Bool
  | returned _ | error _ => true
  | _ => false

/-- Only `false` and `null` are not. -/
def isTruthy : Value → Bool
  | boolean false | null => false
  | _ => true

/-- The value inside a returned one. -/
def unwrapped : Value → Value
  | returned v => v
  | v => v

mutual

/-- Agreement in sort and content. Functions agree with themselves alone, errors by message. -/
def same : Value → Value → Bool
  | integer a, integer b => a == b
  | boolean a, boolean b => a == b
  | null, null => true
  | string a, string b => a == b
  | array as, array bs => sameAll as bs
  | function i _ _ _, function j _ _ _ => i == j
  | builtin a, builtin b => a == b
  | returned a, returned b => a.same b
  | error a, error b => a.message == b.message
  | _, _ => false

def sameAll : List Value → List Value → Bool
  | [], [] => true
  | a :: as, b :: bs => a.same b && sameAll as bs
  | _, _ => false

end

@[simp] theorem isSignal_returned (v : Value) : (returned v).isSignal = true := rfl

@[simp] theorem isSignal_error (e : RuntimeError) : (error e).isSignal = true := rfl

theorem isSignal_iff (v : Value) :
    v.isSignal = true ↔ (∃ w, v = returned w) ∨ ∃ e, v = error e := by
  cases v <;> simp [isSignal]

@[simp] theorem unwrapped_returned (v : Value) : (returned v).unwrapped = v := rfl

theorem unwrapped_of_not_isSignal {v : Value} (h : v.isSignal = false) : v.unwrapped = v := by
  cases v <;> simp_all [unwrapped, isSignal]

end Value

end Simian
