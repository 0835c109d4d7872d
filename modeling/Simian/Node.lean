import Simian.Tree

/-!
# Syntax trees

The programs of the language: statements and expressions, each with the token that it keeps from
the source. A block may stand where a statement stands and a program may stand inside a program.
Whatever else a stored tree holds in such a place is kept as it is and has no meaning; a program
that was read from a source holds nothing of the kind.
-/

namespace Simian

set_option autoImplicit false

/-- A name with its token. -/
structure Ident where
  token : Token
  name : String
  deriving DecidableEq, Repr

inductive Node where
  | program (statements : List Node)
  | letStatement (token : Token) (name : Ident) (value : Node)
  | returnStatement (token : Token) (value : Option Node)
  | expressionStatement (token : Token) (expression : Node)
  | block (token : Token) (statements : List Node)
  | ident (name : Ident)
  | integer (token : Token) (value : Int)
  | string (token : Token) (value : String)
  | boolean (token : Token) (value : Bool)
  | array (token : Token) (elements : List Node)
  | prefixOp (token : Token) (operator : String) (operand : Node)
  | infixOp (token : Token) (operator : String) (left right : Node)
  | conditional (token : Token) (condition consequence : Node) (alternative : Option Node)
  | function (token : Token) (parameters : List Ident) (body : Node)
  | call (token : Token) (callee : Node) (arguments : List Node)
  | index (token : Token) (collection position : Node)
  /-- A stored value that is no node, or a node whose fields do not fit its class. -/
  | datum (tree : Tree)

def Ident.toTree (i : Ident) : Tree := .node .identifier (some i.token) [.text i.name]

def Ident.ofTree? : Tree → Option Ident
  | .node .identifier (some token) [.text name] => some ⟨token, name⟩
  | _ => none

@[simp] theorem Ident.ofTree?_toTree (i : Ident) : Ident.ofTree? i.toTree = some i := rfl

theorem Ident.toTree_of_ofTree? {t : Tree} {i : Ident} (h : Ident.ofTree? t = some i) :
    i.toTree = t := by
  unfold Ident.ofTree? at h
  split at h
  · simp only [Option.some.injEq] at h; subst h; rfl
  · simp at h

/-- The names of a parameter list, if it holds names only. -/
def Ident.listOfTrees? (ts : List Tree) : Option (List Ident) := ts.mapM Ident.ofTree?

namespace Node

/-- The class under which a node is stored. -/
def cls? : Node → Option NodeClass
  | program _ => some .program
  | letStatement .. => some .letStatement
  | returnStatement .. => some .returnStatement
  | expressionStatement .. => some .expressionStatement
  | block .. => some .blockStatement
  | ident _ => some .identifier
  | integer .. => some .integerLiteral
  | string .. => some .stringLiteral
  | boolean .. => some .booleanLiteral
  | array .. => some .arrayLiteral
  | prefixOp .. => some .prefixExpression
  | infixOp .. => some .infixExpression
  | conditional .. => some .ifExpression
  | function .. => some .functionLiteral
  | call .. => some .callExpression
  | index .. => some .indexExpression
  | datum (.node cls _ _) => some cls
  | datum _ => none

mutual

def toTree : Node → Tree
  | program ss => .node .program none [.list (toTrees ss)]
  | letStatement t name value => .node .letStatement (some t) [name.toTree, value.toTree]
  | returnStatement t none => .node .returnStatement (some t) [.null]
  | returnStatement t (some value) => .node .returnStatement (some t) [value.toTree]
  | expressionStatement t e => .node .expressionStatement (some t) [e.toTree]
  | block t ss => .node .blockStatement (some t) [.list (toTrees ss)]
  | ident i => i.toTree
  | integer t n => .node .integerLiteral (some t) [.int n]
  | string t s => .node .stringLiteral (some t) [.text s]
  | boolean t b => .node .booleanLiteral (some t) [.bool b]
  | array t es => .node .arrayLiteral (some t) [.list (toTrees es)]
  | prefixOp t op e => .node .prefixExpression (some t) [.text op, e.toTree]
  | infixOp t op l r => .node .infixExpression (some t) [.text op, l.toTree, r.toTree]
  | conditional t c a none => .node .ifExpression (some t) [c.toTree, a.toTree, .null]
  | conditional t c a (some b) => .node .ifExpression (some t) [c.toTree, a.toTree, b.toTree]
  | function t ps body =>
    .node .functionLiteral (some t) [.list (ps.map Ident.toTree), body.toTree]
  | call t f args => .node .callExpression (some t) [f.toTree, .list (toTrees args)]
  | index t c i => .node .indexExpression (some t) [c.toTree, i.toTree]
  | datum tree => tree

def toTrees : List Node → List Tree
  | [] => []
  | n :: ns => n.toTree :: toTrees ns

end

mutual

/-- The program that a stored tree means. -/
def ofTree : Tree → Node
  | .node .program none [.list ss] => program (ofTrees ss)
  | .node .letStatement (some t) [name, value] =>
    match Ident.ofTree? name with
    | some i => letStatement t i (ofTree value)
    | none => datum (.node .letStatement (some t) [name, value])
  | .node .returnStatement (some t) [.null] => returnStatement t none
  | .node .returnStatement (some t) [value] => returnStatement t (some (ofTree value))
  | .node .expressionStatement (some t) [e] => expressionStatement t (ofTree e)
  | .node .blockStatement (some t) [.list ss] => block t (ofTrees ss)
  | .node .identifier (some t) [.text name] => ident ⟨t, name⟩
  | .node .integerLiteral (some t) [.int n] => integer t n
  | .node .stringLiteral (some t) [.text s] => string t s
  | .node .booleanLiteral (some t) [.bool b] => boolean t b
  | .node .arrayLiteral (some t) [.list es] => array t (ofTrees es)
  | .node .prefixExpression (some t) [.text op, e] => prefixOp t op (ofTree e)
  | .node .infixExpression (some t) [.text op, l, r] => infixOp t op (ofTree l) (ofTree r)
  | .node .ifExpression (some t) [c, a, .null] => conditional t (ofTree c) (ofTree a) none
  | .node .ifExpression (some t) [c, a, b] =>
    conditional t (ofTree c) (ofTree a) (some (ofTree b))
  | .node .functionLiteral (some t) [.list ps, body] =>
    match Ident.listOfTrees? ps with
    | some is => function t is (ofTree body)
    | none => datum (.node .functionLiteral (some t) [.list ps, body])
  | .node .callExpression (some t) [f, .list args] => call t (ofTree f) (ofTrees args)
  | .node .indexExpression (some t) [c, i] => index t (ofTree c) (ofTree i)
  | tree => datum tree

def ofTrees : List Tree → List Node
  | [] => []
  | t :: ts => ofTree t :: ofTrees ts

end

/-- Agreement in everything but the places of tokens. -/
def same (a b : Node) : Bool := a.toTree.same b.toTree

mutual

/-- Replaces every token by `f` of it, stored values that are no nodes left alone. -/
def mapTokens (f : Token → Token) : Node → Node
  | program ss => program (mapTokensAll f ss)
  | letStatement t ⟨u, name⟩ value => letStatement (f t) ⟨f u, name⟩ (value.mapTokens f)
  | returnStatement t none => returnStatement (f t) none
  | returnStatement t (some value) => returnStatement (f t) (some (value.mapTokens f))
  | expressionStatement t e => expressionStatement (f t) (e.mapTokens f)
  | block t ss => block (f t) (mapTokensAll f ss)
  | ident ⟨t, name⟩ => ident ⟨f t, name⟩
  | integer t n => integer (f t) n
  | string t s => string (f t) s
  | boolean t b => boolean (f t) b
  | array t es => array (f t) (mapTokensAll f es)
  | prefixOp t op e => prefixOp (f t) op (e.mapTokens f)
  | infixOp t op l r => infixOp (f t) op (l.mapTokens f) (r.mapTokens f)
  | conditional t c a none => conditional (f t) (c.mapTokens f) (a.mapTokens f) none
  | conditional t c a (some b) =>
    conditional (f t) (c.mapTokens f) (a.mapTokens f) (some (b.mapTokens f))
  | function t ps body =>
    function (f t) (ps.map fun p => ⟨f p.token, p.name⟩) (body.mapTokens f)
  | call t c args => call (f t) (c.mapTokens f) (mapTokensAll f args)
  | index t c i => index (f t) (c.mapTokens f) (i.mapTokens f)
  | datum tree => datum tree

def mapTokensAll (f : Token → Token) : List Node → List Node
  | [] => []
  | n :: ns => n.mapTokens f :: mapTokensAll f ns

end

/-- The token that a node keeps. -/
def token? : Node → Option Token
  | letStatement t _ _ | returnStatement t _ | expressionStatement t _ | block t _
  | integer t _ | string t _ | boolean t _ | array t _ | prefixOp t _ _ | infixOp t _ _ _
  | conditional t _ _ _ | function t _ _ | call t _ _ | index t _ _ => some t
  | ident i => some i.token
  | program _ | datum _ => none

/-- The text of the token that a node keeps; for a program that of its first statement. -/
def tokenLiteral : Node → String
  | program [] => ""
  | program (s :: _) => s.tokenLiteral
  | n => (n.token?.map Token.literal).getD ""

/-- The statements of a program or a block. -/
def statements? : Node → Option (List Node)
  | program ss | block _ ss => some ss
  | _ => none

end Node

end Simian
