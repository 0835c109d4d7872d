import Simian.Proofs.Evaluation.Invariant
import Simian.Proofs.Grammar.Exact

/-!
# What trees are drawn from

A tree keeps tokens of its source only, in its function bodies as well, and every integer in it is
the value of a numeral, which is never negative and at most the greatest one.
-/

namespace Simian

open Grammar
set_option autoImplicit false

namespace Node

/-- The nodes right inside of a node: its parts, and the body of a function. -/
def nested : Node → List Node
  | function _ _ body => [body]
  | n => n.parts

/-- The tokens that a node keeps itself, those of its names included. -/
def ownTokens : Node → List Token
  | letStatement t name _ => [t, name.token]
  | function t parameters _ => t :: parameters.map Ident.token
  | n => n.token?.toList

/-- The value of an integer literal. -/
def literal? : Node → Option Int
  | integer _ v => some v
  | _ => none

/-- A property of a node and of all that is inside of it. -/
inductive Everywhere (P : Node → Prop) : Node → Prop where
  | intro {n : Node} : P n → (∀ c ∈ n.nested, Everywhere P c) → Everywhere P n

/-- The tokens satisfy `Q`, and an integer is in the range of numerals. -/
structure Drawn (Q : Token → Prop) (n : Node) : Prop where
  tokens : ∀ t ∈ n.ownTokens, Q t
  literal : ∀ v ∈ n.literal?, 0 ≤ v ∧ v ≤ Int64.max

variable {P : Node → Prop} {Q : Token → Prop} {n : Node}

theorem Everywhere.here (h : n.Everywhere P) : P n := by
  cases h with
  | intro hn _ => exact hn

theorem Everywhere.inside (h : n.Everywhere P) : ∀ c ∈ n.nested, c.Everywhere P := by
  cases h with
  | intro _ hc => exact hc

theorem Everywhere.imp {P' : Node → Prop} (h : n.Everywhere P) (hP : ∀ n, P n → P' n) :
    n.Everywhere P' := by
  induction h with
  | intro hn _ ih => exact .intro (hP _ hn) ih

theorem Drawn.of_tokens (h : ∀ t ∈ n.ownTokens, Q t) (hn : n.literal? = none) : n.Drawn Q :=
  ⟨h, fun _ hv => by rw [hn] at hv; cases hv⟩

/-- A node that has no other inside. -/
theorem Everywhere.leaf (h : P n) (hn : n.nested = []) : n.Everywhere P :=
  .intro h fun _ hc => absurd (hn ▸ hc) List.not_mem_nil

theorem Everywhere.one {c : Node} (h : P n) (hn : n.nested = [c]) (hc : c.Everywhere P) :
    n.Everywhere P := by
  refine .intro h ?_
  rw [hn]
  exact List.forall_mem_singleton.mpr hc

theorem Everywhere.two {c d : Node} (h : P n) (hn : n.nested = [c, d]) (hc : c.Everywhere P)
    (hd : d.Everywhere P) : n.Everywhere P := by
  refine .intro h ?_
  rw [hn]
  exact List.forall_mem_cons.mpr ⟨hc, List.forall_mem_singleton.mpr hd⟩

theorem parts_subset_nested (n : Node) : n.parts ⊆ n.nested := by
  cases n with
  | function => exact List.nil_subset _
  | _ => exact List.Subset.refl _

end Node

open Node

namespace Grammar

variable {b : Binding} {Q : Token → Prop}

theorem Names.drawn {ts : List Token} {is : List Ident} (h : Names ts is) (hs : ∀ t ∈ ts, Q t) :
    ∀ i ∈ is, Q i.token := by
  induction h with
  | nil => exact fun _ hi => absurd hi List.not_mem_nil
  | one => simpa using hs
  | cons _ _ _ _ ih =>
    simp only [List.forall_mem_cons] at hs ⊢
    exact ⟨hs.1, ih hs.2.2⟩

mutual

theorem Expr.drawn : ∀ {k : Nat} {ts : List Token} {n : Node}, Expr b k ts n →
    (∀ t ∈ ts, Q t) → n.Everywhere (Drawn Q)
  | _, _, _, .ident _, hs => .leaf (.of_tokens hs rfl) rfl
  | _, _, _, .integer _ hv, hs => by
    refine .leaf ⟨hs, fun v hval => ?_⟩ rfl
    cases hval
    exact ⟨Int.natCast_nonneg _, hv⟩
  | _, _, _, .string _, hs => .leaf (.of_tokens hs rfl) rfl
  | _, _, _, .trueWord _, hs => .leaf (.of_tokens hs rfl) rfl
  | _, _, _, .falseWord _, hs => .leaf (.of_tokens hs rfl) rfl
  | _, _, _, .group _ he _, hs => by
    simp only [List.cons_append, List.forall_mem_cons, List.forall_mem_append] at hs
    exact he.drawn hs.2.1
  | _, _, _, .array _ hi _, hs => by
    simp only [List.cons_append, List.forall_mem_cons, List.forall_mem_append] at hs
    exact .intro (.of_tokens (by simpa [ownTokens, token?] using hs.1) rfl) (hi.drawn hs.2.1)
  | _, _, _, .prefixOp _ _ he, hs => by
    simp only [List.forall_mem_cons] at hs
    exact .one (.of_tokens (by simpa [ownTokens, token?] using hs.1) rfl) rfl (he.drawn hs.2)
  | _, _, _, .infixOp _ _ hl hr, hs => by
    simp only [List.forall_mem_cons, List.forall_mem_append] at hs
    exact .two (.of_tokens (by simpa [ownTokens, token?] using hs.2.1) rfl) rfl (hl.drawn hs.1)
      (hr.drawn hs.2.2)
  | _, _, _, .conditional _ _ hc _ hb, hs => by
    simp only [List.cons_append, List.forall_mem_cons, List.forall_mem_append] at hs
    obtain ⟨hw, -, hcs, -, hbs⟩ := hs
    exact .two (.of_tokens (by simpa [ownTokens, token?] using hw) rfl) rfl (hc.drawn hcs)
      (hb.drawn hbs)
  | _, _, _, .alternative _ _ hc _ hb _ hd, hs => by
    simp only [List.cons_append, List.forall_mem_cons, List.forall_mem_append] at hs
    obtain ⟨hw, -, ⟨hcs, -, hbs⟩, -, hds⟩ := hs
    refine .intro (.of_tokens (by simpa [ownTokens, token?] using hw) rfl) ?_
    simpa [nested, parts] using ⟨hc.drawn hcs, hb.drawn hbs, hd.drawn hds⟩
  | _, _, _, .function _ _ hp _ hb, hs => by
    simp only [List.cons_append, List.forall_mem_cons, List.forall_mem_append] at hs
    obtain ⟨hw, -, hps, -, hbs⟩ := hs
    refine .one (.of_tokens ?_ rfl) rfl (hb.drawn hbs)
    simpa [ownTokens] using ⟨hw, hp.drawn hps⟩
  | _, _, _, .call hf _ hi _, hs => by
    simp only [List.cons_append, List.forall_mem_cons, List.forall_mem_append] at hs
    obtain ⟨hfs, hl, hts, -⟩ := hs
    refine .intro (.of_tokens (by simpa [ownTokens, token?] using hl) rfl) ?_
    simpa [nested, parts] using ⟨hf.drawn hfs, hi.drawn hts⟩
  | _, _, _, .index hc _ he _, hs => by
    simp only [List.cons_append, List.forall_mem_cons, List.forall_mem_append] at hs
    obtain ⟨hcs, hl, hts, -⟩ := hs
    exact .two (.of_tokens (by simpa [ownTokens, token?] using hl) rfl) rfl (hc.drawn hcs)
      (he.drawn hts)

theorem Items.drawn : ∀ {ts : List Token} {ns : List Node}, Items b ts ns →
    (∀ t ∈ ts, Q t) → ∀ n ∈ ns, n.Everywhere (Drawn Q)
  | _, _, .nil, _ => fun _ hn => absurd hn List.not_mem_nil
  | _, _, .one he, hs => by simpa using he.drawn hs
  | _, _, .cons he _ hi _, hs => by
    simp only [List.forall_mem_cons, List.forall_mem_append] at hs
    exact List.forall_mem_cons.mpr ⟨he.drawn hs.1, hi.drawn hs.2.2⟩

theorem Block.drawn : ∀ {ts : List Token} {n : Node}, Block b ts n →
    (∀ t ∈ ts, Q t) → n.Everywhere (Drawn Q)
  | _, _, .intro _ hst _, hs => by
    simp only [List.cons_append, List.forall_mem_cons, List.forall_mem_append] at hs
    exact .intro (.of_tokens (by simpa [ownTokens, token?] using hs.1) rfl) (hst.drawn hs.2.1)

theorem Statements.drawn : ∀ {ts : List Token} {ns : List Node}, Statements b ts ns →
    (∀ t ∈ ts, Q t) → ∀ n ∈ ns, n.Everywhere (Drawn Q)
  | _, _, .nil, _ => fun _ hn => absurd hn List.not_mem_nil
  | _, _, .semicolon _ hst, hs => hst.drawn (List.forall_mem_cons.mp hs).2
  | _, _, .cons hn _ hst, hs => by
    simp only [List.forall_mem_append] at hs
    exact List.forall_mem_cons.mpr ⟨hn.drawn hs.1, hst.drawn hs.2⟩

theorem Statement.drawn : ∀ {ts : List Token} {n : Node}, Statement b ts n →
    (∀ t ∈ ts, Q t) → n.Everywhere (Drawn Q)
  | _, _, .letStatement _ _ _ he, hs => by
    simp only [List.forall_mem_cons] at hs
    obtain ⟨hw, hx, -, hts⟩ := hs
    exact .one (.of_tokens (by simpa [ownTokens] using ⟨hw, hx⟩) rfl) rfl (he.drawn hts)
  | _, _, .returnValue _ he, hs => by
    simp only [List.forall_mem_cons] at hs
    exact .one (.of_tokens (by simpa [ownTokens, token?] using hs.1) rfl) rfl (he.drawn hs.2)
  | _, _, .returnBare _, hs => .leaf (.of_tokens hs rfl) rfl
  | _, _, .expression he, hs => by
    exact .one (.of_tokens (by simpa [ownTokens, token?] using hs _ List.mem_cons_self) rfl) rfl
      (he.drawn hs)

end

end Grammar

/-- Whatever errors a source has, the statements that survive are derived from its own tokens. -/
theorem statement_of_parse {source : String} {parsed : Parsed} (h : parse source = .ok parsed) :
    ∀ n ∈ parsed.statements, ∃ us, us ⊆ (tokenize source).tokens ∧ Statement .ranked us n := by
  obtain ⟨heof, -⟩ := tokenize_spelled source
  rw [parse, Parser.parseStream_eq_ok_iff heof] at h
  obtain ⟨ss, t, hx, rfl⟩ := h
  obtain ⟨ns, hns, hst⟩ := survivors_sound (proper_source source) hx
  have hss : ss.toList = ns := hns
  exact fun n hn => hst n (hss ▸ hn)

/-- Whatever errors a source has, the statements that survive keep its own tokens only, and
integers in the range of numerals. -/
theorem drawn_of_parse {source : String} {parsed : Parsed} (h : parse source = .ok parsed)
    {Q : Token → Prop} (hQ : ∀ t ∈ (tokenize source).tokens, Q t) :
    ∀ n ∈ parsed.statements, n.Everywhere (Drawn Q) := by
  intro n hn
  obtain ⟨us, hus, hst⟩ := statement_of_parse h n hn
  exact hst.drawn fun t ht => hQ t (hus ht)

end Simian
