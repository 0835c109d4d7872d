import Simian.Int64
import Simian.Parser.Basic

/-!
# The rules of the grammar

One rule for each form of statement and expression. None of them is recursive: each is given the
rule `expr` for expressions of a precedence, and `Simian.Parser` ties the knot. A rule is entered
with its first token current and left with its last one current; most rules do not test their
first token.
-/

namespace Simian.Parser

open ParserState
set_option autoImplicit false

/-- The rule for expressions whose operators bind tighter than a precedence. -/
abbrev ExprRule := Precedence → Parser Node

def identifier : Parser Node := do
  let token ← cur
  return .ident ⟨token, token.literal⟩

/-- A numeral; beyond the range of integers it is a syntax error. -/
def integerLiteral : Parser Node := do
  let token ← cur
  match Text.readInteger token.literal.toList with
  | .ok n => if Int64.max < n then fail .integerRange token else return .integer token n
  | .error fault => throw (.numeral fault)

def stringLiteral : Parser Node := do
  let token ← cur
  return .string token token.literal

def booleanLiteral : Parser Node := do
  let token ← cur
  return .boolean token (token.kind == .trueWord)

section

variable (expr : ExprRule)

def letStatement : Parser Node := do
  let token ← cur
  expect .ident
  let name ← cur
  expect .assign
  next
  let value ← expr .lowest
  skipOptional .semicolon
  return .letStatement token ⟨name, name.literal⟩ value

/-- The value of a return is missing before a semicolon, a closing brace and the end. -/
def returnStatement : Parser Node := do
  let token ← cur
  let following ← peek
  match following.kind with
  | .semicolon =>
    next
    return .returnStatement token none
  | .rbrace | .eof => return .returnStatement token none
  | _ =>
    next
    let value ← expr .lowest
    skipOptional .semicolon
    return .returnStatement token (some value)

def expressionStatement : Parser Node := do
  let token ← cur
  let value ← expr .lowest
  skipOptional .semicolon
  return .expressionStatement token value

def statement : Parser Node := do
  let token ← cur
  match token.kind with
  | .letWord => letStatement expr
  | .returnWord => returnStatement expr
  | _ => expressionStatement expr

/-- One round of a block: a stray semicolon is skipped, a statement is added. -/
def blockRound (statements : Array Node) : Parser (Array Node) := do
  let token ← cur
  match token.kind with
  | .eof => fail (.expected .rbrace) token
  | .semicolon =>
    next
    return statements
  | _ =>
    let s ← statement expr
    next
    return statements.push s

def block : Parser Node := do
  let token ← cur
  next
  let statements ← loop (fun s => !s.curIs .rbrace) (blockRound expr) #[]
  return .block token statements.toList

/-- One round of a list: the comma that follows, and an item. -/
def listRound (items : Array Node) : Parser (Array Node) := do
  next
  next
  return items.push (← expr .lowest)

/-- The items behind an opening bracket up to the closing one. -/
def expressionList (closer : Kind) : Parser (List Node) := do
  let following ← peek
  if following.kind = closer then
    next
    return []
  else
    next
    let head ← expr .lowest
    let items ← loop (peekIs .comma) (listRound expr) #[head]
    expect closer
    return items.toList

def prefixExpression : Parser Node := do
  let token ← cur
  next
  let operand ← expr .unary
  return .prefixOp token token.literal operand

def groupedExpression : Parser Node := do
  next
  let inner ← expr .lowest
  expect .rparen
  return inner

def arrayLiteral : Parser Node := do
  let token ← cur
  return .array token (← expressionList expr .rbracket)

/-- A block behind its brace. -/
def branch : Parser Node := do
  expect .lbrace
  block expr

def ifExpression : Parser Node := do
  let token ← cur
  expect .lparen
  next
  let condition ← expr .lowest
  expect .rparen
  let consequence ← branch expr
  let following ← peek
  if following.kind = .elseWord then
    next
    return .conditional token condition consequence (some (← branch expr))
  else return .conditional token condition consequence none

end

/-- The name that must follow, as a parameter. -/
def parameter (parameters : Array Ident) : Parser (Array Ident) := do
  expect .ident
  let name ← cur
  return parameters.push ⟨name, name.literal⟩

/-- One round of a parameter list: the comma that follows, and a name. -/
def parameterRound (parameters : Array Ident) : Parser (Array Ident) := do
  next
  parameter parameters

/-- The parameters behind an opening parenthesis up to the closing one. -/
def parameters : Parser (List Ident) := do
  let following ← peek
  if following.kind = .rparen then
    next
    return []
  else
    let first ← parameter #[]
    let names ← loop (peekIs .comma) parameterRound first
    expect .rparen
    return names.toList

section

variable (expr : ExprRule)

def functionLiteral : Parser Node := do
  let token ← cur
  expect .lparen
  let names ← parameters
  return .function token names (← branch expr)

/-- The right operand binds tighter than the operator, so operators group to the left. -/
def infixExpression (left : Node) : Parser Node := do
  let token ← cur
  next
  let right ← expr (.ofKind token.kind)
  return .infixOp token token.literal left right

def callExpression (callee : Node) : Parser Node := do
  let token ← cur
  return .call token callee (← expressionList expr .rparen)

def indexExpression (collection : Node) : Parser Node := do
  let token ← cur
  next
  let position ← expr .lowest
  expect .rbracket
  return .index token collection position

/-- The expression that starts at the current token, without what may continue it. -/
def operand : Parser Node := do
  let token ← cur
  match token.kind with
  | .ident => identifier
  | .int => integerLiteral
  | .string => stringLiteral
  | .trueWord | .falseWord => booleanLiteral
  | .bang | .minus => prefixExpression expr
  | .lparen => groupedExpression expr
  | .lbracket => arrayLiteral expr
  | .ifWord => ifExpression expr
  | .fnWord => functionLiteral expr
  | .illegal => fail .illegal token
  | _ => fail .noPrefixRule token

/-- Takes the operator that follows and what belongs to it. -/
def continuation (left : Node) : Parser Node := do
  next
  let token ← cur
  match token.kind with
  | .lparen => callExpression expr left
  | .lbracket => indexExpression expr left
  | _ => infixExpression expr left

/-- An operand continued while the next operator binds tighter than `precedence`. -/
def expression (precedence : Precedence) : Parser Node := do
  let left ← operand expr
  loop (fun s => decide (precedence.rank < (Precedence.ofKind s.input.peek.kind).rank))
    (continuation expr) left

/-- One round of a program. A statement with a syntax error is given up, and reading goes on
behind the next semicolon outside brackets. -/
def programRound (statements : Array Node) : Parser (Array Node) := do
  let token ← cur
  match token.kind with
  | .semicolon =>
    next
    return statements
  | _ =>
    match ← recovering (statement expr) with
    | some s =>
      next
      return statements.push s
    | none =>
      synchronize
      resetDepth
      return statements

/-- The statements up to the end that have no syntax error. -/
def programStatements : Parser (List Node) := do
  let statements ← loop (fun s => !s.curIs .eof) (programRound expr) #[]
  return statements.toList

end

end Simian.Parser
