import Simian.Int64
import Simian.Value

/-!
# Operators

Prefix, infix and index operators on values. An operator is any text. Two integers and two
strings are looked at first, then the constants, then whether the sorts agree.
-/

namespace Simian.Value

set_option autoImplicit false

def prefixOp (op : String) (v : Value) : Value :=
  if op = "!" then boolean !v.isTruthy
  else if op = "-" then
    match v with
    | integer n => integer (Int64.wrap (-n))
    | v => error (.unknownPrefix "-" v.type)
  else error (.unknownPrefix op v.type)

def integerInfix (op : String) (a b : Int) : Value :=
  if op = "+" then integer (Int64.wrap (a + b))
  else if op = "-" then integer (Int64.wrap (a - b))
  else if op = "*" then integer (Int64.wrap (a * b))
  else if op = "/" then
    match Int64.divide? a b with
    | some q => integer q
    | none => error .divisionByZero
  else if op = "<" then boolean (decide (a < b))
  else if op = ">" then boolean (decide (b < a))
  else if op = "==" then boolean (decide (a = b))
  else if op = "!=" then boolean (decide (a ≠ b))
  else error (.unknownInfix .integer op .integer)

def isEquality (op : String) : Bool := op == "==" || op == "!="

def isComparison (op : String) : Bool := op == "<" || op == ">" || isEquality op

/-- Whether a value is `true`, `false` or `null`. -/
def isConstant : Value → Bool
  | boolean _ | null => true
  | _ => false

/-- The error for operands that an operator does not take. -/
def infixError (op : String) (l r : Value) : RuntimeError :=
  if l.type ≠ r.type ∨ isComparison op = true then .typeMismatch l.type op r.type
  else .unknownInfix l.type op r.type

def infixOp (op : String) (l r : Value) : Value :=
  match l, r with
  | integer a, integer b => integerInfix op a b
  | string a, string b =>
    if op = "+" then string (a ++ b) else error (infixError op l r)
  | l, r =>
    if isEquality op && l.isConstant && r.isConstant then
      boolean (l.same r == (op == "=="))
    else error (infixError op l r)

/-- The element at a place counted from zero; `null` beyond the ends. -/
def elementAt (elements : List Value) (i : Int) : Value :=
  if i < 0 then null else elements.getD i.toNat null

/-- The elements and the place that an index operator selects from, or why it cannot. -/
def indexOperands (collection position : Value) : Except RuntimeError (List Value × Int) :=
  match collection with
  | array es =>
    match position with
    | integer i => .ok (es, i)
    | position => .error (.notAnIndex position.type)
  | collection => .error (.notIndexable collection.type)

end Simian.Value
