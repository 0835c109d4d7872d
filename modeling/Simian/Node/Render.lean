import Simian.Node

/-!
# Programs as text

The text of a syntax tree. Operators are enclosed in parentheses together with their operands, so
the text shows how they bind and reads back as the same tree. A semicolon stands between two
statements unless the first one ends in one already.
-/

namespace Simian

set_option autoImplicit false

def endsInSemicolon (s : String) : Bool := s.toList.getLast? == some ';'

def withSemicolon (s : String) : String := if endsInSemicolon s then s else s ++ ";"

/-- The texts of statements in a row. -/
def joinStatements : List String → String
  | [] => ""
  | [s] => s
  | s :: rest => withSemicolon s ++ " " ++ joinStatements rest

def commaSeparated (texts : List String) : String := ", ".intercalate texts

namespace Node

mutual

def render : Node → String
  | program ss => joinStatements (renderAll ss)
  | letStatement _ name value => "let " ++ name.name ++ " = " ++ value.render ++ ";"
  | returnStatement _ none => "return;"
  | returnStatement _ (some value) => "return " ++ value.render ++ ";"
  | expressionStatement _ e => e.render
  | block _ ss =>
    if ss.isEmpty then "\x7b \x7d" else "\x7b " ++ joinStatements (renderAll ss) ++ " \x7d"
  | ident i => i.name
  | integer _ n => toString n
  | string _ s => "\x22" ++ s ++ "\x22"
  | boolean _ b => if b then "true" else "false"
  | array _ es => "[" ++ commaSeparated (renderAll es) ++ "]"
  | prefixOp _ op e => "(" ++ op ++ e.render ++ ")"
  | infixOp _ op l r => "(" ++ l.render ++ " " ++ op ++ " " ++ r.render ++ ")"
  | conditional _ c a none => "if (" ++ c.render ++ ") " ++ a.render
  | conditional _ c a (some b) => "if (" ++ c.render ++ ") " ++ a.render ++ " else " ++ b.render
  | function _ ps body => "fn(" ++ commaSeparated (ps.map Ident.name) ++ ") " ++ body.render
  | call _ f args => f.render ++ "(" ++ commaSeparated (renderAll args) ++ ")"
  | index _ c i => "(" ++ c.render ++ "[" ++ i.render ++ "])"
  | datum tree => tree.plain

def renderAll : List Node → List String
  | [] => []
  | n :: ns => n.render :: renderAll ns

end

theorem renderAll_eq_map (ns : List Node) : renderAll ns = ns.map render := by
  induction ns with
  | nil => rfl
  | cons n ns ih => simp [renderAll, ih]

end Node

end Simian
