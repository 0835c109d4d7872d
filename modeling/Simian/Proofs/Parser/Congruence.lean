import Simian.Parser
import Simian.Proofs.Steps

/-!
# Rules respect the rule for expressions

Every rule is put together from steps, choices, sequences and loops, and it is given the rule for
expressions. A relation of actions that sequences and loops respect therefore holds of a rule given
one rule for expressions and the same rule given another, as soon as it holds of these two.
-/

namespace Simian.Parser

open ParserState
set_option autoImplicit false

/-- A relation of actions that sequences and loops respect. -/
structure Congruence where
  rel {α : Type} : Parser α → Parser α → Prop
  refl {α : Type} (x : Parser α) : rel x x
  bind {α β : Type} {x y : Parser α} {f g : α → Parser β} : rel x y →
    (∀ a, rel (f a) (g a)) → rel (x >>= f) (y >>= g)
  loop {α : Type} {again : ParserState → Bool} {body body' : α → Parser α} (a : α) :
    (∀ a, rel (body a) (body' a)) → rel (loop again body a) (loop again body' a)

namespace Congruence

variable (C : Congruence) {e e' : ExprRule}

/-- A step that is the same on both sides. -/
theorem step {α β : Type} {x : Parser α} {f g : α → Parser β} (h : ∀ a, C.rel (f a) (g a)) :
    C.rel (x >>= f) (x >>= g) := C.bind (C.refl x) h

variable (h : ∀ p, C.rel (e p) (e' p))
include h

theorem statement : C.rel (statement e) (statement e') := by
  have hvalue (f : Node → Node) :
      C.rel (e .lowest >>= fun v => skipOptional .semicolon >>= fun _ => pure (f v))
        (e' .lowest >>= fun v => skipOptional .semicolon >>= fun _ => pure (f v)) :=
    C.bind (h _) fun _ => C.refl _
  refine C.step fun t => ?_
  split
  · exact C.step fun _ => C.step fun _ => C.step fun _ => C.step fun _ => C.step fun _ => hvalue _
  · refine C.step fun _ => C.step fun _ => ?_
    split
    · exact C.refl _
    · exact C.refl _
    · exact C.refl _
    · exact C.step fun _ => hvalue _
  · exact C.step fun _ => hvalue _

theorem block : C.rel (block e) (block e') := by
  refine C.step fun _ => C.step fun _ => C.bind (C.loop _ fun ss => ?_) fun _ => C.refl _
  refine C.step fun t => ?_
  split
  · exact C.refl _
  · exact C.refl _
  · exact C.bind (C.statement h) fun _ => C.refl _

theorem expressionList (closer : Kind) :
    C.rel (expressionList e closer) (expressionList e' closer) := by
  refine C.step fun _ => ?_
  split
  · exact C.refl _
  · refine C.step fun _ => C.bind (h _) fun _ => C.bind (C.loop _ fun _ => ?_) fun _ => C.refl _
    exact C.step fun _ => C.step fun _ => C.bind (h _) fun _ => C.refl _

theorem branch : C.rel (branch e) (branch e') := C.step fun _ => C.block h

theorem ifExpression : C.rel (ifExpression e) (ifExpression e') := by
  refine C.step fun _ => C.step fun _ => C.step fun _ => C.bind (h _) fun _ => C.step fun _ => ?_
  refine C.bind (C.branch h) fun _ => C.step fun _ => ?_
  split
  · exact C.step fun _ => C.bind (C.branch h) fun _ => C.refl _
  · exact C.refl _

theorem operand : C.rel (operand e) (operand e') := by
  refine C.step fun t => ?_
  split
  · exact C.refl _
  · exact C.refl _
  · exact C.refl _
  · exact C.refl _
  · exact C.refl _
  · exact C.step fun _ => C.step fun _ => C.bind (h _) fun _ => C.refl _
  · exact C.step fun _ => C.step fun _ => C.bind (h _) fun _ => C.refl _
  · exact C.step fun _ => C.bind (h _) fun _ => C.refl _
  · exact C.step fun _ => C.bind (C.expressionList h _) fun _ => C.refl _
  · exact C.ifExpression h
  · exact C.step fun _ => C.step fun _ => C.step fun _ => C.bind (C.branch h) fun _ => C.refl _
  · exact C.refl _
  · exact C.refl _

theorem continuation (left : Node) : C.rel (continuation e left) (continuation e' left) := by
  refine C.step fun _ => C.step fun t => ?_
  split
  · exact C.step fun _ => C.bind (C.expressionList h _) fun _ => C.refl _
  · exact C.step fun _ => C.step fun _ => C.bind (h _) fun _ => C.refl _
  · exact C.step fun _ => C.step fun _ => C.bind (h _) fun _ => C.refl _

theorem expression (p : Precedence) : C.rel (expression e p) (expression e' p) :=
  C.bind (C.operand h) fun _ => C.loop _ fun left => C.continuation h left

end Congruence

end Simian.Parser
