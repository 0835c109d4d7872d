import Simian.Proofs.Parser.Motion

/-!
# What a token selects

A rule looks at the kind of the current token, or of the next one, and does what that kind asks
for. Here every such choice is an equation on the state, so that later proofs open no rule.
-/

namespace Simian.Parser

open Text ParserState
set_option autoImplicit false

variable {e : ExprRule} {s : ParserState}

section Steps
variable {α : Type}

theorem cur_bind (f : Token → Parser α) : (cur >>= f) s = f s.input.cur s := rfl

theorem peek_bind (f : Token → Parser α) : (peek >>= f) s = f s.input.peek s := rfl

theorem next_bind (f : Unit → Parser α) : (next >>= f) s = f () s.advance := rfl

theorem expect_bind {k : Kind} (h : s.peekIs k = true) (f : Unit → Parser α) :
    (expect k >>= f) s = f () s.advance := bind_of_ok (expect_of_peekIs h)

theorem skipOptional_of_peekIs {k : Kind} (h : s.peekIs k = true) :
    skipOptional k s = .ok () s.advance := by
  simp [skipOptional, h]

theorem skipOptional_of_not_peekIs {k : Kind} (h : s.peekIs k = false) :
    skipOptional k s = .ok () s := by
  simp [skipOptional, h]

end Steps

/-! ## Statements -/

theorem statement_of_let (h : s.input.cur.kind = .letWord) :
    statement e s = letStatement e s := by
  rw [statement, cur_bind, h]

theorem statement_of_return (h : s.input.cur.kind = .returnWord) :
    statement e s = returnStatement e s := by
  rw [statement, cur_bind, h]

theorem statement_of_other (hl : s.input.cur.kind ≠ .letWord)
    (hr : s.input.cur.kind ≠ .returnWord) : statement e s = expressionStatement e s := by
  rw [statement, cur_bind]
  generalize s.input.cur.kind = k at *
  cases k <;> first | rfl | contradiction

theorem returnStatement_of_semicolon (h : s.input.peek.kind = .semicolon) :
    returnStatement e s = .ok (.returnStatement s.input.cur none) s.advance := by
  rw [returnStatement, cur_bind, peek_bind, h]
  rfl

theorem returnStatement_of_bare (h : s.input.peek.kind = .rbrace ∨ s.input.peek.kind = .eof) :
    returnStatement e s = .ok (.returnStatement s.input.cur none) s := by
  rw [returnStatement, cur_bind, peek_bind]
  rcases h with h | h <;> rw [h] <;> rfl

theorem returnStatement_of_other (hs : s.input.peek.kind ≠ .semicolon)
    (hb : s.input.peek.kind ≠ .rbrace) (he : s.input.peek.kind ≠ .eof) :
    returnStatement e s = (e .lowest >>= fun value => skipOptional .semicolon >>= fun _ =>
      pure (.returnStatement s.input.cur (some value))) s.advance := by
  rw [returnStatement, cur_bind, peek_bind]
  generalize s.input.peek.kind = k at *
  cases k <;> first | rfl | contradiction

theorem blockRound_of_eof (h : s.input.cur.kind = .eof) (ss : Array Node) :
    blockRound e ss s = fail (.expected .rbrace) s.input.cur s := by
  rw [blockRound, cur_bind, h]

theorem blockRound_of_semicolon (h : s.input.cur.kind = .semicolon) (ss : Array Node) :
    blockRound e ss s = .ok ss s.advance := by
  rw [blockRound, cur_bind, h]
  rfl

theorem blockRound_of_other (he : s.input.cur.kind ≠ .eof) (hs : s.input.cur.kind ≠ .semicolon)
    (ss : Array Node) : blockRound e ss s =
      (statement e >>= fun n => next >>= fun _ => pure (ss.push n)) s := by
  rw [blockRound, cur_bind]
  generalize s.input.cur.kind = k at *
  cases k <;> first | rfl | contradiction

theorem programRound_of_semicolon (h : s.input.cur.kind = .semicolon) (ss : Array Node) :
    programRound e ss s = .ok ss s.advance := by
  rw [programRound, cur_bind, h]
  rfl

theorem programRound_of_ok {t : ParserState} {n : Node} (hs : s.input.cur.kind ≠ .semicolon)
    (h : statement e s = .ok n t) (ss : Array Node) :
    programRound e ss s = .ok (ss.push n) t.advance := by
  have hr : recovering (statement e) s = .ok (some n) t := by simp [recovering, h]
  rw [programRound, cur_bind]
  generalize s.input.cur.kind = k at *
  cases k <;> first | contradiction | (exact (bind_of_ok hr).trans rfl)

theorem programRound_of_abandoned {t : ParserState} (hs : s.input.cur.kind ≠ .semicolon)
    (h : statement e s = .error .abandoned t) (ss : Array Node) :
    programRound e ss s = (synchronize >>= fun _ => resetDepth >>= fun _ => pure ss) t := by
  have hr : recovering (statement e) s = .ok none t := by simp [recovering, h]
  rw [programRound, cur_bind]
  generalize s.input.cur.kind = k at *
  cases k <;> first | contradiction | (exact (bind_of_ok hr).trans rfl)

theorem programRound_of_stopped {t : ParserState} {stop : Stop}
    (hs : s.input.cur.kind ≠ .semicolon) (h : statement e s = .error stop t)
    (hstop : stop ≠ .abandoned) (ss : Array Node) :
    programRound e ss s = .error stop t := by
  have hr : recovering (statement e) s = .error stop t := by
    cases stop <;> first | contradiction | simp [recovering, h]
  rw [programRound, cur_bind]
  generalize s.input.cur.kind = k at *
  cases k <;> first | contradiction | exact bind_of_error hr

/-! ## Lists -/

theorem expressionList_of_closer {closer : Kind} (h : s.input.peek.kind = closer) :
    expressionList e closer s = .ok [] s.advance := by
  rw [expressionList, peek_bind, if_pos h]
  rfl

theorem expressionList_of_other {closer : Kind} (h : s.input.peek.kind ≠ closer) :
    expressionList e closer s = (e .lowest >>= fun head =>
      loop (peekIs .comma) (listRound e) #[head] >>= fun items =>
      expect closer >>= fun _ => pure items.toList) s.advance := by
  rw [expressionList, peek_bind, if_neg h]
  rfl

theorem parameters_of_rparen (h : s.input.peek.kind = .rparen) :
    parameters s = .ok [] s.advance := by
  rw [parameters, peek_bind, if_pos h]
  rfl

theorem parameters_of_other (h : s.input.peek.kind ≠ .rparen) :
    parameters s = (parameter #[] >>= fun first =>
      loop (peekIs .comma) parameterRound first >>= fun names =>
      expect .rparen >>= fun _ => pure names.toList) s := by
  rw [parameters, peek_bind, if_neg h]

/-! ## Expressions -/

theorem operand_of_ident (h : s.input.cur.kind = .ident) :
    operand e s = .ok (.ident ⟨s.input.cur, s.input.cur.literal⟩) s := by
  rw [operand, cur_bind, h]
  rfl

theorem operand_of_int (h : s.input.cur.kind = .int) : operand e s = integerLiteral s := by
  rw [operand, cur_bind, h]

theorem integerLiteral_of_le {n : Int} (h : readInteger s.input.cur.literal.toList = .ok n)
    (hn : n ≤ Int64.max) : integerLiteral s = .ok (.integer s.input.cur n) s := by
  rw [integerLiteral, cur_bind, h]
  change (if Int64.max < n then fail .integerRange s.input.cur else _) s = _
  rw [if_neg (Int.not_lt.mpr hn)]
  rfl

theorem integerLiteral_of_lt {n : Int} (h : readInteger s.input.cur.literal.toList = .ok n)
    (hn : Int64.max < n) : integerLiteral s = fail .integerRange s.input.cur s := by
  rw [integerLiteral, cur_bind, h]
  change (if Int64.max < n then fail .integerRange s.input.cur else _) s = _
  rw [if_pos hn]

theorem integerLiteral_of_error {fault : NumeralFault}
    (h : readInteger s.input.cur.literal.toList = .error fault) :
    integerLiteral s = .error (.numeral fault) s := by
  rw [integerLiteral, cur_bind, h]
  rfl

theorem operand_of_string (h : s.input.cur.kind = .string) :
    operand e s = .ok (.string s.input.cur s.input.cur.literal) s := by
  rw [operand, cur_bind, h]
  rfl

theorem operand_of_true (h : s.input.cur.kind = .trueWord) :
    operand e s = .ok (.boolean s.input.cur true) s := by
  rw [operand, cur_bind, h]
  change EStateM.Result.ok (Node.boolean s.input.cur (s.input.cur.kind == .trueWord)) s = _
  rw [h]
  rfl

theorem operand_of_false (h : s.input.cur.kind = .falseWord) :
    operand e s = .ok (.boolean s.input.cur false) s := by
  rw [operand, cur_bind, h]
  change EStateM.Result.ok (Node.boolean s.input.cur (s.input.cur.kind == .trueWord)) s = _
  rw [h]
  rfl

theorem operand_of_prefixOp (h : s.input.cur.kind = .bang ∨ s.input.cur.kind = .minus) :
    operand e s = prefixExpression e s := by
  rw [operand, cur_bind]
  rcases h with h | h <;> rw [h]

theorem operand_of_lparen (h : s.input.cur.kind = .lparen) :
    operand e s = groupedExpression e s := by
  rw [operand, cur_bind, h]

theorem operand_of_lbracket (h : s.input.cur.kind = .lbracket) :
    operand e s = arrayLiteral e s := by
  rw [operand, cur_bind, h]

theorem operand_of_if (h : s.input.cur.kind = .ifWord) : operand e s = ifExpression e s := by
  rw [operand, cur_bind, h]

theorem operand_of_fn (h : s.input.cur.kind = .fnWord) : operand e s = functionLiteral e s := by
  rw [operand, cur_bind, h]

theorem operand_of_other (h : s.input.cur.kind ∉ [Kind.ident, .int, .string, .trueWord, .falseWord,
    .lparen, .lbracket, .bang, .minus, .ifWord, .fnWord]) :
    ∃ cause, operand e s = fail cause s.input.cur s := by
  rw [operand, cur_bind]
  generalize s.input.cur.kind = k at h ⊢
  cases k <;> first | exact absurd (by decide) h | exact ⟨_, rfl⟩

theorem continuation_of_lparen (h : s.input.peek.kind = .lparen) (left : Node) :
    continuation e left s = callExpression e left s.advance := by
  rw [continuation, next_bind, cur_bind, advance_input, TokenStream.cur_next, h]

theorem continuation_of_lbracket (h : s.input.peek.kind = .lbracket) (left : Node) :
    continuation e left s = indexExpression e left s.advance := by
  rw [continuation, next_bind, cur_bind, advance_input, TokenStream.cur_next, h]

theorem continuation_of_other (hp : s.input.peek.kind ≠ .lparen)
    (hb : s.input.peek.kind ≠ .lbracket) (left : Node) :
    continuation e left s = infixExpression e left s.advance := by
  rw [continuation, next_bind, cur_bind, advance_input, TokenStream.cur_next]
  generalize s.input.peek.kind = k at *
  cases k <;> first | rfl | contradiction

end Simian.Parser
