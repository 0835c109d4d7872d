import Simian.Proofs.Parser.Dispatch

/-!
# Expressions of any depth

The rules of the grammar are given a rule for expressions whose nesting is bounded. Every level
takes a token, so a bound above the number of tokens left is as good as any other. `rule` is the
rule for expressions without a bound in sight. It satisfies the equation of precedence climbing,
and every rule that is run to the end runs with it.
-/

namespace Simian.Parser

open ParserState
set_option autoImplicit false

structure Fits (n : Nat) (s : ParserState) : Prop where
  ends : s.Ends
  left_lt : s.left < n

theorem Fits.of_reaches {n : Nat} {s t : ParserState} (h : Fits n s) (hst : Reaches s t) :
    Fits n t := ⟨hst.ends h.ends, Nat.lt_of_le_of_lt hst.left_le h.left_lt⟩

theorem Fits.advance {n : Nat} {s : ParserState} (h : Fits n s) : Fits n s.advance :=
  h.of_reaches (.step s)

theorem Fits.moved {n : Nat} {s : ParserState} (h : Fits (n + 1) s) (hp : 0 < s.left) :
    Fits n s.advance := by
  refine ⟨h.ends, ?_⟩
  have := h.left_lt
  rw [advance_left]
  omega

/-- Two rules for expressions that do the same wherever fewer than `n` tokens are left. -/
def Agree (n : Nat) (e e' : ExprRule) : Prop :=
  ∀ p s, Fits n s → Runs s (e p) (e' p)

namespace Runs
variable {n : Nat} {e e' : ExprRule} {s : ParserState}

section
variable (h : Agree n e e') (hs : Fits n s)
include h hs

theorem letStatement : Runs s (letStatement e) (letStatement e') := by
  unfold Parser.letStatement
  refine .cur_bind (.expect_bind fun _ => .cur_bind (.expect_bind fun _ => .next_bind ?_))
  exact (h _ _ hs.advance.advance.advance).bind fun _ _ _ _ => (Runs.skipOptional _).map _

theorem returnStatement : Runs s (returnStatement e) (returnStatement e') := by
  unfold Parser.returnStatement
  refine .cur_bind (.peek_bind ?_)
  split
  · exact .next_bind (.pure _)
  · exact .pure _
  · exact .pure _
  · exact .next_bind ((h _ _ hs.advance).bind fun _ _ _ _ => (Runs.skipOptional _).map _)

theorem expressionStatement : Runs s (expressionStatement e) (expressionStatement e') := by
  unfold Parser.expressionStatement
  exact .cur_bind ((h _ _ hs).bind fun _ _ _ _ => (Runs.skipOptional _).map _)

theorem statement : Runs s (statement e) (statement e') := by
  unfold Parser.statement
  apply Runs.cur_bind
  split
  · exact .letStatement h hs
  · exact .returnStatement h hs
  · exact .expressionStatement h hs

theorem blockRound (ss : Array Node) : Runs s (blockRound e ss) (blockRound e' ss) := by
  unfold Parser.blockRound
  apply Runs.cur_bind
  split
  · exact .fail_cur _
  · exact .next_bind (.pure _)
  · exact (Runs.statement h hs).bind fun _ _ _ _ => .next_bind (.pure _)

end

theorem parameter (ps : Array Ident) : Runs s (parameter ps) (parameter ps) := by
  unfold Parser.parameter
  exact .expect_bind fun _ => .cur_bind (.pure _)

end Runs

theorem comma_pos {s : ParserState} (hs : s.Ends) (h : peekIs .comma s = true) : 0 < s.left :=
  Nat.lt_of_succ_lt (one_lt_left_of_peekIs hs (by decide) h)

theorem left_lt_of_next {α : Type} {s t : ParserState} {x : Unit → Parser α} {a : α}
    (hpos : 0 < s.left) (hx : (next >>= x) s = .ok a t) (h : Runs s.advance (x ()) (x ())) :
    Reaches s t ∧ t.left < s.left := by
  have hr := h.reaches ((next_bind x).symm.trans hx)
  exact ⟨hr.of_advance, hr.left_lt hpos⟩

theorem blockRound_shrinks {n : Nat} {e e' : ExprRule} (h : Agree n e e') :
    Shrinks (Fits n) (fun s => !s.curIs .rbrace) (blockRound e) := by
  intro ss s ts t hs _ hx
  refine ⟨hs.of_reaches ((Runs.blockRound h hs ss).reaches hx), ?_⟩
  by_cases he : s.input.cur.kind = .eof
  · simp [blockRound_of_eof he, fail] at hx
  · have hpos := left_pos_of_cur hs.ends he
    by_cases hk : s.input.cur.kind = .semicolon
    · obtain ⟨rfl, rfl⟩ : ss = ts ∧ s.advance = t := by simpa [blockRound_of_semicolon hk] using hx
      exact (Reaches.refl _).left_lt hpos
    · rw [blockRound_of_other he hk] at hx
      obtain ⟨_, u, hu, ht⟩ := bind_eq_ok_iff.mp hx
      cases ht
      have hle := ((Runs.statement h hs).reaches hu).left_le
      rw [advance_left]
      omega

theorem parameterRound_shrinks : Shrinks Ends (peekIs .comma) parameterRound := by
  intro ps s qs t hs ha hx
  obtain ⟨hst, hlt⟩ := left_lt_of_next (comma_pos hs ha) hx (.parameter ps)
  exact ⟨hst.ends hs, hlt⟩

theorem listRound_shrinks {n : Nat} {e e' : ExprRule} (h : Agree n e e') :
    Shrinks (Fits n) (peekIs .comma) (listRound e) := by
  intro ns s ms t hs ha hx
  obtain ⟨hst, hlt⟩ := left_lt_of_next (comma_pos hs.ends ha) hx
    (.next_bind ((h _ _ hs.advance.advance).self.map _))
  exact ⟨hs.of_reaches hst, hlt⟩

namespace Runs
variable {n : Nat} {e e' : ExprRule} {s : ParserState}

theorem parameters (hs : s.Ends) : Runs s parameters parameters := by
  unfold Parser.parameters
  apply Runs.peek_bind
  split
  · exact .next_bind (.pure _)
  · apply (Runs.parameter _).bind
    intro first t _ hst
    refine (Runs.loop parameterRound_shrinks (hst.ends hs) (fun ps u _ _ => ?_) first).bind
      fun _ _ _ _ => (Runs.expect _).map _
    exact .next_bind (.parameter ps)

section
variable (h : Agree n e e') (hs : Fits n s.advance)
include h

include hs

theorem block : Runs s (block e) (block e') := by
  unfold Parser.block
  refine .cur_bind (.next_bind ?_)
  exact (Runs.loop (blockRound_shrinks h) hs (fun ss t ht _ => .blockRound h ht ss) _).map _

theorem expressionList (closer : Kind) :
    Runs s (expressionList e closer) (expressionList e' closer) := by
  unfold Parser.expressionList
  apply Runs.peek_bind
  split
  · exact .next_bind (.pure _)
  · refine .next_bind ((h _ _ hs).bind fun head t _ hst => ?_)
    refine (Runs.loop (listRound_shrinks h) (hs.of_reaches hst) (fun ns u hu _ => ?_) _).bind
      fun _ _ _ _ => (Runs.expect _).map _
    exact .next_bind (.next_bind ((h _ _ hu.advance.advance).map _))

theorem prefixExpression : Runs s (prefixExpression e) (prefixExpression e') := by
  unfold Parser.prefixExpression
  exact .cur_bind (.next_bind ((h _ _ hs).map _))

theorem groupedExpression : Runs s (groupedExpression e) (groupedExpression e') := by
  unfold Parser.groupedExpression
  exact .next_bind ((h _ _ hs).bind fun _ _ _ _ => (Runs.expect _).map _)

theorem arrayLiteral : Runs s (arrayLiteral e) (arrayLiteral e') := by
  unfold Parser.arrayLiteral
  exact .cur_bind ((Runs.expressionList h hs _).map _)

theorem branch : Runs s (branch e) (branch e') := by
  unfold Parser.branch
  exact .expect_bind fun _ => .block h hs.advance

theorem ifExpression : Runs s (ifExpression e) (ifExpression e') := by
  unfold Parser.ifExpression
  refine .cur_bind (.expect_bind fun _ => .next_bind ?_)
  refine (h _ _ hs.advance).bind fun condition t _ ht => .expect_bind fun _ => ?_
  have ht := (hs.advance.of_reaches ht).advance
  refine (Runs.branch h ht.advance).bind fun consequence u _ hu => .peek_bind ?_
  have hu := ht.of_reaches hu
  split
  · exact .next_bind ((Runs.branch h hu.advance.advance).map _)
  · exact .pure _

theorem functionLiteral : Runs s (functionLiteral e) (functionLiteral e') := by
  unfold Parser.functionLiteral
  refine .cur_bind (.expect_bind fun _ => ?_)
  apply (Runs.parameters hs.ends).bind
  intro names t _ ht
  exact (Runs.branch h (hs.of_reaches ht).advance).map _

theorem infixExpression (left : Node) :
    Runs s (infixExpression e left) (infixExpression e' left) := by
  unfold Parser.infixExpression
  exact .cur_bind (.next_bind ((h _ _ hs).map _))

theorem callExpression (callee : Node) :
    Runs s (callExpression e callee) (callExpression e' callee) := by
  unfold Parser.callExpression
  exact .cur_bind ((Runs.expressionList h hs _).map _)

theorem indexExpression (collection : Node) :
    Runs s (indexExpression e collection) (indexExpression e' collection) := by
  unfold Parser.indexExpression
  exact .cur_bind (.next_bind ((h _ _ hs).bind fun _ _ _ _ => (Runs.expect _).map _))

theorem continuation (left : Node) :
    Runs s (continuation e left) (continuation e' left) := by
  unfold Parser.continuation
  refine .next_bind (.cur_bind ?_)
  split
  · exact .callExpression h hs.advance left
  · exact .indexExpression h hs.advance left
  · exact .infixExpression h hs.advance left

end

theorem integerLiteral (hk : s.input.cur.kind = .int) :
    Runs s integerLiteral integerLiteral := by
  unfold Parser.integerLiteral
  apply Runs.cur_bind
  split
  · split
    · exact .fail_cur _
    · exact .pure _
  · next hf => exact ⟨rfl, .numeral (.refl s) hk hf⟩

theorem operand (h : Agree n e e') (hs : Fits (n + 1) s) : Runs s (operand e) (operand e') := by
  have moved (k : Kind) (hk : s.input.cur.kind = k) (hne : k ≠ .eof) : Fits n s.advance :=
    hs.moved (left_pos_of_cur hs.ends (hk ▸ hne))
  unfold Parser.operand
  apply Runs.cur_bind
  split
  · exact .cur_bind (.pure _)
  · next hk => exact .integerLiteral hk
  · exact .cur_bind (.pure _)
  · exact .cur_bind (.pure _)
  · exact .cur_bind (.pure _)
  · next hk => exact .prefixExpression h (moved _ hk (by decide))
  · next hk => exact .prefixExpression h (moved _ hk (by decide))
  · next hk => exact .groupedExpression h (moved _ hk (by decide))
  · next hk => exact .arrayLiteral h (moved _ hk (by decide))
  · next hk => exact .ifExpression h (moved _ hk (by decide))
  · next hk => exact .functionLiteral h (moved _ hk (by decide))
  · exact .fail_cur _
  · exact .fail_cur _

end Runs

/-- Whether the operator that follows binds tighter than `p`. -/
def binds (p : Precedence) (s : ParserState) : Bool :=
  decide (p.rank < (Precedence.ofKind s.input.peek.kind).rank)

theorem one_lt_left_of_binds {p : Precedence} {s : ParserState} (hs : s.Ends)
    (h : binds p s = true) : 1 < s.left := by
  apply one_lt_left_of_peek hs
  intro he
  have hlt := of_decide_eq_true h
  rw [he] at hlt
  cases p <;> exact absurd hlt (by decide)

section
variable {n : Nat} {e e' : ExprRule} (h : Agree n e e')
include h

theorem continuation_shrinks (p : Precedence) :
    Shrinks (Fits (n + 1)) (binds p) (continuation e) := by
  intro left s m t hs ha hx
  have hpos : 0 < s.left := Nat.lt_of_succ_lt (one_lt_left_of_binds hs.ends ha)
  have hm := (hs.moved hpos).advance
  have hr : Reaches s.advance t := by
    by_cases hp : s.input.peek.kind = .lparen
    · rw [continuation_of_lparen hp] at hx
      exact (Runs.callExpression h hm left).reaches hx
    · by_cases hb : s.input.peek.kind = .lbracket
      · rw [continuation_of_lbracket hb] at hx
        exact (Runs.indexExpression h hm left).reaches hx
      · rw [continuation_of_other hp hb] at hx
        exact (Runs.infixExpression h hm left).reaches hx
  exact ⟨hs.of_reaches hr.of_advance, hr.left_lt hpos⟩

/-- Expressions nest strictly: what an expression asks of the rule for expressions lies at least
one token ahead. -/
theorem Runs.expression {s : ParserState} (hs : Fits (n + 1) s) (p : Precedence) :
    Runs s (expression e p) (expression e' p) := by
  change Runs s (Parser.operand e >>= Parser.loop (binds p) (Parser.continuation e))
    (Parser.operand e' >>= Parser.loop (binds p) (Parser.continuation e'))
  apply (Runs.operand h hs).bind
  intro left t _ hst
  refine .loop (continuation_shrinks h p) (hs.of_reaches hst) (fun m u hu ha => ?_) left
  exact .continuation h (hu.moved (Nat.lt_of_succ_lt (one_lt_left_of_binds hu.ends ha))) m

end

theorem expressionUpTo_agree {m n : Nat} (h : n ≤ m) :
    Agree n (expressionUpTo n) (expressionUpTo m) := by
  induction n generalizing m with
  | zero => exact fun _ _ hs => absurd hs.left_lt (Nat.not_lt_zero _)
  | succ n ih =>
    obtain ⟨m, rfl⟩ : ∃ k, m = k + 1 := ⟨m - 1, by omega⟩
    intro p s hs
    exact .expression (ih (by omega)) hs p

def rule : ExprRule := fun p s => expressionUpTo s.bound p s

theorem expressionUpTo_agree_rule (n : Nat) : Agree n (expressionUpTo n) rule := by
  intro p s hs
  have hb : Fits s.bound s := ⟨hs.ends, Nat.lt_succ_self _⟩
  have hr := expressionUpTo_agree hs.left_lt p s hb
  exact ⟨hr.eq.symm, hr.eq ▸ hr.outcome⟩

theorem rule_agree (n : Nat) : Agree n rule rule := by
  intro p s hs
  have hr := expressionUpTo_agree_rule n p s hs
  exact ⟨rfl, hr.eq ▸ hr.outcome⟩

theorem rule_eq {s : ParserState} (hs : s.Ends) (p : Precedence) :
    rule p s = expression rule p s :=
  (Runs.expression (expressionUpTo_agree_rule s.left) ⟨hs, Nat.lt_succ_self _⟩ p).eq

/-! ## The rules, run with expressions of any depth -/

section
variable {α : Type} {s : ParserState}

theorem Shrinks.of_fits {again : ParserState → Bool} {body : α → Parser α}
    (h : ∀ n, Shrinks (Fits n) again body) : Shrinks Ends again body := by
  intro a s b t hs ha hx
  obtain ⟨ht, hlt⟩ := h (s.left + 1) a s b t ⟨hs, Nat.lt_succ_self _⟩ ha hx
  exact ⟨ht.ends, hlt⟩

theorem statement_runs (hs : s.Ends) : Runs s (statement rule) (statement rule) :=
  .statement (rule_agree _) ⟨hs, Nat.lt_succ_self _⟩

theorem blockRound_shrinks_rule : Shrinks Ends (fun s => !s.curIs .rbrace) (blockRound rule) :=
  .of_fits fun n => blockRound_shrinks (rule_agree n)

theorem listRound_shrinks_rule : Shrinks Ends (peekIs .comma) (listRound rule) :=
  .of_fits fun n => listRound_shrinks (rule_agree n)

theorem continuation_shrinks_rule (p : Precedence) :
    Shrinks Ends (binds p) (continuation rule) := by
  intro left s m t hs ha hx
  obtain ⟨ht, hlt⟩ := continuation_shrinks (rule_agree s.left) p left s m t
    ⟨hs, Nat.lt_succ_self _⟩ ha hx
  exact ⟨ht.ends, hlt⟩

end

end Simian.Parser
