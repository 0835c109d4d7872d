import Simian.Parser
import Simian.Proofs.Steps

/-!
# What rules build

Whatever tokens a rule is given, the trees that it builds are of the forms below: no stored value
stands in them where a node belongs, a function has a block as its body, and an integer is what its
token's text reads as. This is about results only, so it does not matter where a rule starts.
-/

namespace Simian

open Text
set_option autoImplicit false

/-- The forms of the trees that rules build. -/
inductive Node.Built : Node → Prop where
  | letStatement {t : Token} {x : Ident} {e : Node} : Built e → Built (.letStatement t x e)
  | returnStatement {t : Token} {value : Option Node} : (∀ e ∈ value, Built e) →
      Built (.returnStatement t value)
  | expressionStatement {t : Token} {e : Node} : Built e → Built (.expressionStatement t e)
  | block {t : Token} {ss : List Node} : (∀ s ∈ ss, Built s) → Built (.block t ss)
  | ident {x : Ident} : Built (.ident x)
  | integer {t : Token} {n : Int} : readInteger t.literal.toList = .ok n → n ≤ Int64.max →
      Built (.integer t n)
  | string {t : Token} {s : String} : Built (.string t s)
  | boolean {t : Token} {b : Bool} : Built (.boolean t b)
  | array {t : Token} {es : List Node} : (∀ e ∈ es, Built e) → Built (.array t es)
  | prefixOp {t : Token} {op : String} {e : Node} : Built e → Built (.prefixOp t op e)
  | infixOp {t : Token} {op : String} {l r : Node} : Built l → Built r → Built (.infixOp t op l r)
  | conditional {t : Token} {c a : Node} {b : Option Node} : Built c → Built a →
      (∀ n ∈ b, Built n) → Built (.conditional t c a b)
  | function {t u : Token} {ps : List Ident} {ss : List Node} : Built (.block u ss) →
      Built (.function t ps (.block u ss))
  | call {t : Token} {f : Node} {es : List Node} : Built f → (∀ e ∈ es, Built e) →
      Built (.call t f es)
  | index {t : Token} {c i : Node} : Built c → Built i → Built (.index t c i)

theorem Node.Built.body {t : Token} {ps : List Ident} {code : Node}
    (h : (Node.function t ps code).Built) : code.Built := by
  cases h with
  | function h => exact h

namespace Parser

variable {α β : Type} {P : α → Prop} {Q : β → Prop}

/-- What the rule gives satisfies `P`, wherever it is run. -/
def Builds (P : α → Prop) (x : Parser α) : Prop := ∀ s a t, x s = .ok a t → P a

namespace Builds

theorem pure {a : α} (h : P a) : Builds P (Pure.pure a) := by
  intro s b t hb
  cases hb
  exact h

theorem fail (cause : SyntaxCause) (token : Token) : Builds P (Parser.fail cause token) :=
  fun _ _ _ h => nomatch h

theorem throw (stop : Stop) : Builds P (throw stop : Parser α) := fun _ _ _ h => nomatch h

theorem bind {x : Parser α} {f : α → Parser β} (h : Builds P x)
    (hf : ∀ a, P a → Builds Q (f a)) : Builds Q (x >>= f) := by
  intro s b t hb
  obtain ⟨a, u, ha, hb⟩ := bind_eq_ok_iff.mp hb
  exact hf a (h s a u ha) u b t hb

/-- A step whose result does not matter. -/
theorem skip {x : Parser α} {f : α → Parser β} (hf : ∀ a, Builds Q (f a)) :
    Builds Q (x >>= f) :=
  bind (fun _ _ _ _ => trivial) fun a (_ : True) => hf a

theorem repeatWhile {again : ParserState → Bool} {body : α → Parser α}
    (h : ∀ a, P a → Builds P (body a)) (n : Nat) {a : α} (ha : P a) :
    Builds P (repeatWhile again body n a) := by
  induction n generalizing a with
  | zero =>
    intro s b t hb
    unfold Parser.repeatWhile at hb
    split at hb <;> cases hb
    exact ha
  | succ n ih =>
    intro s b t hb
    unfold Parser.repeatWhile at hb
    split at hb
    · exact (bind (h a ha) fun _ hb => ih hb) s b t hb
    · cases hb
      exact ha

theorem loop {again : ParserState → Bool} {body : α → Parser α}
    (h : ∀ a, P a → Builds P (body a)) {a : α} (ha : P a) : Builds P (loop again body a) :=
  fun s b t hb => repeatWhile h s.bound ha s b t hb

theorem recovering {x : Parser α} (h : Builds P x) :
    Builds (fun o => ∀ a ∈ o, P a) (recovering x) := by
  intro s o t ho
  unfold Parser.recovering at ho
  cases hx : x s with
  | ok a u =>
    rw [hx] at ho
    cases ho
    intro b hb
    cases hb
    exact h s _ _ hx
  | error stop u =>
    rw [hx] at ho
    cases stop with
    | abandoned =>
      cases ho
      exact fun _ hb => nomatch hb
    | _ => cases ho

end Builds

open Builds

/-- Lists of nodes, as they are gathered. -/
def AllBuilt (ns : Array Node) : Prop := ∀ n ∈ ns.toList, n.Built

theorem AllBuilt.empty : AllBuilt #[] := fun _ hn => absurd hn List.not_mem_nil

theorem AllBuilt.push {ns : Array Node} {n : Node} (h : AllBuilt ns) (hn : n.Built) :
    AllBuilt (ns.push n) := by
  intro m hm
  rw [Array.toList_push, List.mem_append] at hm
  rcases hm with hm | hm
  · exact h m hm
  · exact List.mem_singleton.mp hm ▸ hn

theorem integerLiteral_builds : Builds Node.Built integerLiteral := by
  refine .skip fun t => ?_
  split
  · next n hn =>
    split
    · exact .fail _ _
    · next hmax => exact .pure (.integer hn (Int.not_lt.mp hmax))
  · exact .throw _

section
variable {expr : ExprRule} (h : ∀ p, Builds Node.Built (expr p))
include h

theorem statement_builds : Builds Node.Built (statement expr) := by
  refine .skip fun t => ?_
  split
  · exact .skip fun _ => .skip fun _ => .skip fun _ => .skip fun _ => .skip fun _ =>
      (h _).bind fun _ he => .skip fun _ => .pure (.letStatement he)
  · refine .skip fun _ => .skip fun _ => ?_
    have hbare : ∀ u, Node.Built (.returnStatement u none) :=
      fun _ => .returnStatement fun _ he => nomatch he
    split
    · exact .skip fun _ => .pure (hbare _)
    · exact .pure (hbare _)
    · exact .pure (hbare _)
    · exact .skip fun _ => (h _).bind fun e he => .skip fun _ => .pure
        (.returnStatement fun _ hm => Option.some.inj hm ▸ he)
  · exact .skip fun _ => (h _).bind fun _ he => .skip fun _ => .pure (.expressionStatement he)

/-- Blocks are built as such, since a function asks for one. -/
theorem block_builds : Builds (fun n => n.Built ∧ ∃ t ss, n = .block t ss) (block expr) := by
  refine .skip fun t => .skip fun _ => ?_
  refine (Builds.loop (P := AllBuilt) (fun ns hns => ?_) .empty).bind fun ns hns =>
    .pure ⟨.block hns, _, _, rfl⟩
  refine .skip fun _ => ?_
  split
  · exact .fail _ _
  · exact .skip fun _ => .pure hns
  · exact (statement_builds h).bind fun _ hn => .skip fun _ => .pure (hns.push hn)

theorem expressionList_builds (closer : Kind) :
    Builds (fun ns => ∀ n ∈ ns, n.Built) (expressionList expr closer) := by
  refine .skip fun _ => ?_
  split
  · exact .skip fun _ => .pure fun _ hn => absurd hn List.not_mem_nil
  · refine .skip fun _ => (h _).bind fun _ he => ?_
    refine (Builds.loop (P := AllBuilt) (fun ns hns => ?_) (AllBuilt.empty.push he)).bind
      fun _ hns => .skip fun _ => .pure hns
    exact .skip fun _ => .skip fun _ => (h _).bind fun _ he => .pure (hns.push he)

theorem branch_builds : Builds (fun n => n.Built ∧ ∃ t ss, n = .block t ss) (branch expr) :=
  .skip fun _ => block_builds h

theorem ifExpression_builds : Builds Node.Built (ifExpression expr) := by
  refine .skip fun _ => .skip fun _ => .skip fun _ => (h _).bind fun _ hc => .skip fun _ => ?_
  refine (branch_builds h).bind fun _ ha => .skip fun _ => ?_
  split
  · exact .skip fun _ => (branch_builds h).bind fun b hb => .pure
      (.conditional hc ha.1 fun _ hm => Option.some.inj hm ▸ hb.1)
  · exact .pure (.conditional hc ha.1 fun _ hm => nomatch hm)

theorem functionLiteral_builds : Builds Node.Built (functionLiteral expr) := by
  refine .skip fun _ => .skip fun _ => .skip fun _ => (branch_builds h).bind fun body hbody => ?_
  obtain ⟨hbuilt, t, ss, rfl⟩ := hbody
  exact .pure (.function hbuilt)

theorem operand_builds : Builds Node.Built (operand expr) := by
  refine .skip fun t => ?_
  split
  · exact .skip fun _ => .pure .ident
  · exact integerLiteral_builds
  · exact .skip fun _ => .pure .string
  · exact .skip fun _ => .pure .boolean
  · exact .skip fun _ => .pure .boolean
  · exact .skip fun _ => .skip fun _ => (h _).bind fun _ he => .pure (.prefixOp he)
  · exact .skip fun _ => .skip fun _ => (h _).bind fun _ he => .pure (.prefixOp he)
  · exact .skip fun _ => (h _).bind fun _ he => .skip fun _ => .pure he
  · exact .skip fun _ => (expressionList_builds h _).bind fun _ hes => .pure (.array hes)
  · exact ifExpression_builds h
  · exact functionLiteral_builds h
  · exact .fail _ _
  · exact .fail _ _

theorem continuation_builds {left : Node} (hl : left.Built) :
    Builds Node.Built (continuation expr left) := by
  refine .skip fun _ => .skip fun t => ?_
  split
  · exact .skip fun _ => (expressionList_builds h _).bind fun _ hes => .pure (.call hl hes)
  · exact .skip fun _ => .skip fun _ => (h _).bind fun _ hi => .skip fun _ => .pure (.index hl hi)
  · exact .skip fun _ => .skip fun _ => (h _).bind fun _ hr => .pure (.infixOp hl hr)

theorem expression_builds (p : Precedence) : Builds Node.Built (expression expr p) :=
  (operand_builds h).bind fun _ hl => .loop (fun _ hn => continuation_builds h hn) hl

theorem programStatements_builds :
    Builds (fun ns => ∀ n ∈ ns, n.Built) (programStatements expr) := by
  refine (Builds.loop (P := AllBuilt) (fun ns hns => ?_) .empty).bind fun _ hns => .pure hns
  refine .skip fun _ => ?_
  split
  · exact .skip fun _ => .pure hns
  · refine (statement_builds h).recovering.bind fun o ho => ?_
    split
    · next n => exact .skip fun _ => .pure (hns.push (ho n rfl))
    · exact .skip fun _ => .skip fun _ => .pure hns

end

theorem expressionUpTo_builds (n : Nat) (p : Precedence) :
    Builds Node.Built (expressionUpTo n p) := by
  induction n generalizing p with
  | zero => exact .throw _
  | succ n ih => exact expression_builds ih p

end Parser

/-- The statements that survive in a source are built by rules, whatever errors it has. -/
theorem built_of_parse {source : String} {parsed : Parsed} (h : parse source = .ok parsed) :
    ∀ n ∈ parsed.statements, n.Built := by
  unfold parse parseStream at h
  split at h
  · next ss t hx =>
    cases h
    exact Parser.programStatements_builds (Parser.expressionUpTo_builds _) _ _ _ hx
  · cases h

end Simian
