import Simian.Proofs.Parser.Congruence
import Simian.Proofs.Parser.Program

/-!
# Where expressions start

Whether an expression starts in a state while a statement is read is told by reading the statement
with a rule for expressions that stops in that state. Nothing inside a statement takes a stop back,
so if no expression can be read there, the statement ends as the expression does.
-/

namespace Simian.Parser

open Text ParserState
set_option autoImplicit false

deriving instance DecidableEq for ParserState

/-- Expressions nested at most `n` deep, of which none is read in the state `u`: there the rule
stops, in the state `v`. -/
def stoppingUpTo (u v : ParserState) (stop : Stop) : Nat → ExprRule
  | 0, _ => throw .exhausted
  | n + 1, p => fun s =>
    if s = u then .error stop v else expression (stoppingUpTo u v stop n) p s

/-- While a statement is read from `s`, an expression starts in the state `u`. -/
def StartsExpression (s u : ParserState) : Prop :=
  statement (stoppingUpTo u u .exhausted s.bound) s = .error .exhausted u

/-- The actions do the same, unless the first one stops in `u`, and then the second one stops in
`v`. -/
def Cut (u v : ParserState) (stop : Stop) {α : Type} (x y : Parser α) : Prop :=
  ∀ s, x s = y s ∨ x s = .error .exhausted u ∧ y s = .error stop v

section
variable {u v : ParserState} {stop : Stop} {α β : Type}

theorem Cut.refl (x : Parser α) : Cut u v stop x x := fun _ => .inl rfl

theorem Cut.bind {x y : Parser α} {f g : α → Parser β} (h : Cut u v stop x y)
    (hf : ∀ a, Cut u v stop (f a) (g a)) : Cut u v stop (x >>= f) (y >>= g) := by
  intro s
  rcases h s with heq | ⟨hx, hy⟩
  · cases hy : y s with
    | ok a t =>
      rw [bind_of_ok (heq.trans hy), bind_of_ok hy]
      exact hf a t
    | error stop' t =>
      rw [bind_of_error (heq.trans hy), bind_of_error hy]
      exact .inl rfl
  · exact .inr ⟨bind_of_error hx, bind_of_error hy⟩

theorem Cut.repeatWhile {again : ParserState → Bool} {body body' : α → Parser α}
    (h : ∀ a, Cut u v stop (body a) (body' a)) (n : Nat) (a : α) :
    Cut u v stop (repeatWhile again body n a) (repeatWhile again body' n a) := by
  induction n generalizing a with
  | zero => exact .refl _
  | succ n ih =>
    intro s
    cases ha : again s with
    | false => rw [repeatWhile_of_not_again ha, repeatWhile_of_not_again ha]; exact .inl rfl
    | true =>
      rw [repeatWhile_succ ha, repeatWhile_succ ha]
      exact Cut.bind (h a) ih s

end

def cut (u v : ParserState) (stop : Stop) : Congruence where
  rel := Cut u v stop
  refl := .refl
  bind := .bind
  loop a h s := Cut.repeatWhile h s.bound a s

section
variable {s u v : ParserState} {stop : Stop}

theorem stoppingUpTo_self (n : Nat) (p : Precedence) :
    stoppingUpTo u v stop (n + 1) p u = .error stop v := if_pos rfl

theorem stoppingUpTo_of_ne (h : s ≠ u) (n : Nat) (p : Precedence) :
    stoppingUpTo u v stop (n + 1) p s = expression (stoppingUpTo u v stop n) p s := if_neg h

theorem stoppingUpTo_cut (n : Nat) (p : Precedence) :
    Cut u v stop (stoppingUpTo u u .exhausted n p) (stoppingUpTo u v stop n p) := by
  induction n generalizing p with
  | zero => exact .refl _
  | succ n ih =>
    intro s
    by_cases hs : s = u
    · subst hs
      exact .inr ⟨stoppingUpTo_self n p, stoppingUpTo_self n p⟩
    · rw [stoppingUpTo_of_ne hs, stoppingUpTo_of_ne hs]
      exact (cut u v stop).expression ih p s

theorem stoppingUpTo_agree
    (ho : Outcome u (.error stop v : EStateM.Result Stop ParserState Node)) (n : Nat) :
    Agree n (stoppingUpTo u v stop n) (stoppingUpTo u v stop n) := by
  induction n with
  | zero => exact fun _ _ hs => absurd hs.left_lt (Nat.not_lt_zero _)
  | succ n ih =>
    intro p s hs
    refine ⟨rfl, ?_⟩
    by_cases hu : s = u
    · subst hu
      rwa [stoppingUpTo_self]
    · rw [stoppingUpTo_of_ne hu]
      exact (Runs.expression ih hs p).outcome

/-- A rule that cannot read an expression in `u` is one that stops there. -/
theorem expressionUpTo_eq_stoppingUpTo (hu : ∀ e p, expression e p u = .error stop v) (n : Nat) :
    expressionUpTo n = stoppingUpTo u v stop n := by
  induction n with
  | zero => rfl
  | succ n ih =>
    funext p s
    by_cases hs : s = u
    · subst hs
      rw [stoppingUpTo_self, expressionUpTo_succ, hu]
    · rw [stoppingUpTo_of_ne hs, expressionUpTo_succ, ih]

/-- A statement that is read as rules may be read stops where an expression starts that cannot be
read. -/
theorem StartsExpression.stops (h : StartsExpression s u)
    (ho : Outcome s (statement (stoppingUpTo u v stop s.bound) s)) :
    statement (stoppingUpTo u v stop s.bound) s = .error stop v := by
  rcases (cut u v stop).statement (stoppingUpTo_cut s.bound) s with heq | ⟨-, hstop⟩
  · -- No rule runs out of steps.
    rw [← heq, h] at ho
    cases ho
  · exact hstop

theorem StartsExpression.reaches (h : StartsExpression s u) (hs : s.Ends) : Reaches s u := by
  -- Any error about the token of `u` will do.
  let e : SyntaxError := ⟨.noPrefixRule, u.input.cur⟩
  have hagree := stoppingUpTo_agree (u := u) (.abandoned (e := e) (.refl u) (.inl rfl)) s.bound
  have hruns := Runs.statement hagree ⟨hs, Nat.lt_succ_self _⟩
  obtain ⟨w, f, hsw, -, heq⟩ := abandoned_reaches hruns (h.stops hruns.outcome)
  obtain ⟨rfl, -⟩ := record_inj heq
  exact hsw

/-- If no expression can be read where one starts, the statement cannot be read either. -/
theorem StartsExpression.statement_eq (h : StartsExpression s u) (hs : s.Ends)
    (hu : ∀ e p, expression e p u = .error stop v) : statement rule s = .error stop v := by
  have hruns := Runs.statement (expressionUpTo_agree_rule s.bound) ⟨hs, Nat.lt_succ_self _⟩
  have ho := hruns.outcome
  rw [expressionUpTo_eq_stoppingUpTo hu] at ho
  rw [← hruns.eq, expressionUpTo_eq_stoppingUpTo hu]
  exact h.stops ho

/-- A statement that is introduced by no keyword starts with an expression. -/
theorem startsExpression_self (hl : s.input.cur.kind ≠ .letWord)
    (hr : s.input.cur.kind ≠ .returnWord) : StartsExpression s s := by
  rw [StartsExpression, statement_of_other hl hr, expressionStatement, cur_bind]
  exact bind_of_error (stoppingUpTo_self s.left .lowest)

/-! ## Numerals -/

variable {e : ExprRule} {p : Precedence}

theorem expression_of_lt {n : Int} (hk : u.input.cur.kind = .int)
    (h : readInteger u.input.cur.literal.toList = .ok n) (hn : Int64.max < n) :
    expression e p u = .error .abandoned (u.record ⟨.integerRange, u.input.cur⟩) := by
  have hoperand := (operand_of_int hk (e := e)).trans (integerLiteral_of_lt h hn)
  exact bind_of_error hoperand

theorem expression_of_error {fault : NumeralFault} (hk : u.input.cur.kind = .int)
    (h : readInteger u.input.cur.literal.toList = .error fault) :
    expression e p u = .error (.numeral fault) u := by
  have hoperand := (operand_of_int hk (e := e)).trans (integerLiteral_of_error h)
  exact bind_of_error hoperand

end

end Simian.Parser
