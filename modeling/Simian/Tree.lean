import Simian.Token

/-!
# Stored trees

What a stored syntax tree can hold anywhere: constants, numbers, texts, lists, tokens, and nodes
of one of sixteen classes with a value for each of the class's fields. A stored tree need not be
a program; `Simian.Node` says which ones the language gives a meaning to.
-/

namespace Simian

set_option autoImplicit false

inductive NodeClass where
  | program | letStatement | returnStatement | expressionStatement | blockStatement
  | identifier | integerLiteral | stringLiteral | booleanLiteral | arrayLiteral
  | prefixExpression | infixExpression | ifExpression | functionLiteral
  | callExpression | indexExpression
  deriving DecidableEq, Repr

namespace NodeClass

def all : List NodeClass :=
  [program, letStatement, returnStatement, expressionStatement, blockStatement,
    identifier, integerLiteral, stringLiteral, booleanLiteral, arrayLiteral,
    prefixExpression, infixExpression, ifExpression, functionLiteral,
    callExpression, indexExpression]

def name : NodeClass → String
  | program => "Program"
  | letStatement => "LetStatement"
  | returnStatement => "ReturnStatement"
  | expressionStatement => "ExpressionStatement"
  | blockStatement => "BlockStatement"
  | identifier => "Identifier"
  | integerLiteral => "IntegerLiteral"
  | stringLiteral => "StringLiteral"
  | booleanLiteral => "BooleanLiteral"
  | arrayLiteral => "ArrayLiteral"
  | prefixExpression => "PrefixExpression"
  | infixExpression => "InfixExpression"
  | ifExpression => "IfExpression"
  | functionLiteral => "FunctionLiteral"
  | callExpression => "CallExpression"
  | indexExpression => "IndexExpression"

def ofName? (s : String) : Option NodeClass := all.find? (fun c => c.name == s)

/-- Whether nodes of the class keep a token. -/
def hasToken : NodeClass → Bool
  | program => false
  | _ => true

/-- The fields of the class in their order, the token left out. -/
def fields : NodeClass → List String
  | program | blockStatement => ["statements"]
  | letStatement => ["name", "value"]
  | returnStatement | integerLiteral | stringLiteral | booleanLiteral => ["value"]
  | expressionStatement => ["expression"]
  | identifier => ["name"]
  | arrayLiteral => ["elements"]
  | prefixExpression => ["operator", "operand"]
  | infixExpression => ["operator", "left", "right"]
  | ifExpression => ["condition", "consequence", "alternative"]
  | functionLiteral => ["parameters", "body"]
  | callExpression => ["callee", "arguments"]
  | indexExpression => ["collection", "index"]

@[simp] theorem ofName?_name (c : NodeClass) : ofName? c.name = some c := by cases c <;> decide

theorem name_of_ofName? {s : String} {c : NodeClass} (h : ofName? s = some c) : c.name = s := by
  simpa using List.find?_some h

end NodeClass

inductive Tree where
  | null
  | bool (b : Bool)
  | int (n : Int)
  | text (s : String)
  | list (items : List Tree)
  | token (t : Token)
  | node (cls : NodeClass) (token : Option Token) (fields : List Tree)

namespace Tree

/-- The name of the sort of thing that a tree is. -/
def sort : Tree → String
  | null => "NoneType"
  | bool _ => "bool"
  | int _ => "int"
  | text _ => "str"
  | list _ => "list"
  | token _ => "Token"
  | node cls _ _ => cls.name

/-- Agreement of the tokens of two nodes, if they keep any. -/
def sameToken : Option Token → Option Token → Bool
  | none, none => true
  | some a, some b => a.same b
  | _, _ => false

mutual

/-- Agreement in everything but the places of tokens. -/
def same : Tree → Tree → Bool
  | null, null => true
  | bool a, bool b => a == b
  | int a, int b => a == b
  | text a, text b => a == b
  | list as, list bs => sameAll as bs
  | token a, token b => a.same b
  | node c t as, node d u bs => c == d && sameToken t u && sameAll as bs
  | _, _ => false

def sameAll : List Tree → List Tree → Bool
  | [], [] => true
  | a :: as, b :: bs => a.same b && sameAll as bs
  | _, _ => false

end

mutual

/-- How a tree shows inside a list: texts quoted. A node shows as the name of its class. -/
def display : Tree → String
  | null => "None"
  | bool b => if b then "True" else "False"
  | int n => toString n
  | text s => Text.quoted s
  | list items => "[" ++ ", ".intercalate (displayAll items) ++ "]"
  | token t => t.describe
  | node cls _ _ => cls.name

def displayAll : List Tree → List String
  | [] => []
  | t :: ts => t.display :: displayAll ts

end

/-- As `display`, with a text standing for itself. -/
def plain : Tree → String
  | text s => s
  | t => t.display

end Tree

end Simian
