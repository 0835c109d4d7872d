/-!
# Run-time errors

The sorts of run-time values and what can go wrong with them. An error is kept as its cause;
`RuntimeError.message` is its wording.
-/

namespace Simian

set_option autoImplicit false

inductive ValueType where
  | integer | boolean | null | string | array | function | builtin | returned | error
  deriving DecidableEq, Repr

def ValueType.name : ValueType → String
  | integer => "INTEGER"
  | boolean => "BOOLEAN"
  | null => "NULL"
  | string => "STRING"
  | array => "ARRAY"
  | function => "FUNCTION"
  | builtin => "BUILTIN"
  | returned => "RETURN_VALUE"
  | error => "ERROR"

/-- The name of the class of values. -/
def ValueType.className : ValueType → String
  | integer => "Integer"
  | boolean => "Boolean"
  | null => "Null"
  | string => "String"
  | array => "Array"
  | function => "Function"
  | builtin => "Builtin"
  | returned => "ReturnValue"
  | error => "Error"

inductive RuntimeError where
  | unknownIdentifier (name : String)
  | unknownPrefix (operator : String) (operand : ValueType)
  | unknownInfix (left : ValueType) (operator : String) (right : ValueType)
  | typeMismatch (left : ValueType) (operator : String) (right : ValueType)
  | divisionByZero
  | notIndexable (collection : ValueType)
  | notAnIndex (position : ValueType)
  | wrongArity (wanted given : Nat)
  | notAFunction (callee : ValueType)
  /-- A built-in function got a value that has no length. -/
  | noLength (argument : ValueType)
  /-- The built-in function `name` got something other than an array. -/
  | notAnArray (name : String) (argument : ValueType)
  | tooDeep
  deriving DecidableEq, Repr

def RuntimeError.message : RuntimeError → String
  | unknownIdentifier name => "identifier not found: " ++ name
  | unknownPrefix op t => "unknown operator: " ++ op ++ t.name
  | unknownInfix l op r => "unknown operator: " ++ l.name ++ " " ++ op ++ " " ++ r.name
  | typeMismatch l op r => "type mismatch: " ++ l.name ++ " " ++ op ++ " " ++ r.name
  | divisionByZero => "division by zero"
  | notIndexable t => "index operator not supported: " ++ t.name
  | notAnIndex t => "index must be INTEGER, got " ++ t.name
  | wrongArity wanted given =>
    "wrong number of arguments: want=" ++ toString wanted ++ ", got=" ++ toString given
  | notAFunction t => "not a function: " ++ t.name
  | noLength t => "argument to `len` not supported, got " ++ t.name
  | notAnArray name t => "argument to `" ++ name ++ "` must be ARRAY, got " ++ t.name
  | tooDeep => "maximum recursion depth exceeded"

end Simian
