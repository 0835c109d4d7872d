import Simian.Proofs.Grammar.Drawn

/-!
# Accounting for tokens

A tree keeps every token of its source once and in the order of the source, but for those that only
hold others together: parentheses, what closes a bracket, commas, semicolons, the `=` of a `let` and
`else`. The parenthesis of a call is kept as well, but as a token that holds others together. A
statement keeps the first token of its stretch of the source, whichever that is.
-/

namespace Simian

open Grammar
set_option autoImplicit false

namespace Node

mutual

/-- The tokens stored in a tree in the order of the source, without the tokens of calls and of
expressions that stand as statements. -/
def storedTokens : Node → List Token
  | program ss => storedTokensAll ss
  | letStatement t name value => t :: name.token :: value.storedTokens
  | returnStatement t none => [t]
  | returnStatement t (some value) => t :: value.storedTokens
  | expressionStatement _ e => e.storedTokens
  | block t ss => t :: storedTokensAll ss
  | ident name => [name.token]
  | integer t _ | string t _ | boolean t _ => [t]
  | array t es => t :: storedTokensAll es
  | prefixOp t _ e => t :: e.storedTokens
  | infixOp t _ left right => left.storedTokens ++ t :: right.storedTokens
  | conditional t condition consequence none =>
    t :: condition.storedTokens ++ consequence.storedTokens
  | conditional t condition consequence (some alternative) =>
    t :: condition.storedTokens ++ consequence.storedTokens ++ alternative.storedTokens
  | function t parameters body => t :: parameters.map Ident.token ++ body.storedTokens
  | call _ callee arguments => callee.storedTokens ++ storedTokensAll arguments
  | index t collection position => collection.storedTokens ++ t :: position.storedTokens
  | datum _ => []

def storedTokensAll : List Node → List Token
  | [] => []
  | n :: ns => n.storedTokens ++ storedTokensAll ns

end

end Node

/-- The kinds of tokens that only hold others together, and the end. -/
def Kind.joining : List Kind :=
  [.lparen, .rparen, .rbracket, .rbrace, .semicolon, .comma, .assign, .elseWord, .eof]

/-- The tokens that a tree of them has to account for. -/
def accountable (ts : List Token) : List Token := ts.filter fun t => decide (t.kind ∉ Kind.joining)

section
variable {t : Token} {ts us : List Token}

@[simp] theorem accountable_nil : accountable [] = [] := rfl

@[simp] theorem accountable_append : accountable (ts ++ us) = accountable ts ++ accountable us :=
  List.filter_append ts us

theorem accountable_cons (h : t.kind ∉ Kind.joining) : accountable (t :: ts) = t :: accountable ts :=
  List.filter_cons_of_pos (by simpa using h)

theorem accountable_cons_joining (h : t.kind ∈ Kind.joining) :
    accountable (t :: ts) = accountable ts :=
  List.filter_cons_of_neg (by simpa using h)

end

namespace Grammar

variable {b : Binding}

/-! ## What is stored -/

theorem IsPrefix.not_joining {k : Kind} (h : IsPrefix k) : k ∉ Kind.joining := by
  rcases h with rfl | rfl <;> decide

theorem isInfix_not_joining : ∀ k, IsInfix k → k ∉ Kind.joining := by
  intro k h
  cases k <;> revert h <;> decide

theorem Names.stored {ts : List Token} {is : List Ident} (h : Names ts is) :
    is.map Ident.token = accountable ts := by
  induction h with
  | nil => rfl
  | one ht => rw [accountable_cons (ht ▸ by decide)]; rfl
  | cons ht hc _ _ ih =>
    rw [accountable_cons (ht ▸ by decide), accountable_cons_joining (hc ▸ by decide), ← ih]
    rfl

mutual

theorem Expr.stored : ∀ {k : Nat} {ts : List Token} {n : Node}, Expr b k ts n →
    n.storedTokens = accountable ts
  | _, _, _, .ident h | _, _, _, .integer h _ | _, _, _, .string h | _, _, _, .trueWord h
  | _, _, _, .falseWord h => by
    rw [Node.storedTokens, accountable_cons (h ▸ by decide), accountable_nil]
  | _, _, _, .group hl he hr => by
    rw [he.stored, List.cons_append, accountable_cons_joining (hl ▸ by decide), accountable_append,
      accountable_cons_joining (hr ▸ by decide), accountable_nil, List.append_nil]
  | _, _, _, .array hl hi hr => by
    rw [Node.storedTokens, hi.stored, List.cons_append, accountable_cons (hl ▸ by decide),
      accountable_append, accountable_cons_joining (hr ▸ by decide), accountable_nil,
      List.append_nil]
  | _, _, _, .prefixOp hp _ he => by
    rw [Node.storedTokens, he.stored, accountable_cons hp.not_joining]
  | _, _, _, .infixOp ho _ hl hr => by
    rw [Node.storedTokens, hl.stored, hr.stored, accountable_append,
      accountable_cons (isInfix_not_joining _ ho)]
  | _, _, _, .conditional hw hl hc hr hb => by
    simp only [Node.storedTokens, hc.stored, hb.stored, List.cons_append]
    rw [accountable_cons (hw ▸ by decide), accountable_cons_joining (hl ▸ by decide),
      accountable_append, accountable_cons_joining (hr ▸ by decide)]
  | _, _, _, .alternative hw hl hc hr hb he hd => by
    rw [Node.storedTokens, hc.stored, hb.stored, hd.stored]
    simp only [List.cons_append, List.append_assoc]
    rw [accountable_cons (hw ▸ by decide), accountable_cons_joining (hl ▸ by decide),
      accountable_append, accountable_cons_joining (hr ▸ by decide), accountable_append,
      accountable_cons_joining (he ▸ by decide)]
  | _, _, _, .function hw hl hp hr hb => by
    simp only [Node.storedTokens, hp.stored, hb.stored, List.cons_append]
    rw [accountable_cons (hw ▸ by decide), accountable_cons_joining (hl ▸ by decide),
      accountable_append, accountable_cons_joining (hr ▸ by decide)]
  | _, _, _, .call hf hl hi hr => by
    rw [Node.storedTokens, hf.stored, hi.stored, accountable_append, List.cons_append,
      accountable_cons_joining (hl ▸ by decide), accountable_append,
      accountable_cons_joining (hr ▸ by decide), accountable_nil, List.append_nil]
  | _, _, _, .index hc hl he hr => by
    rw [Node.storedTokens, hc.stored, he.stored, accountable_append, List.cons_append,
      accountable_cons (hl ▸ by decide), accountable_append,
      accountable_cons_joining (hr ▸ by decide), accountable_nil, List.append_nil]

theorem Items.stored : ∀ {ts : List Token} {ns : List Node}, Items b ts ns →
    Node.storedTokensAll ns = accountable ts
  | _, _, .nil => rfl
  | _, _, .one he => by
    rw [Node.storedTokensAll, Node.storedTokensAll, he.stored, List.append_nil]
  | _, _, .cons he hc hi _ => by
    rw [Node.storedTokensAll, he.stored, hi.stored, accountable_append,
      accountable_cons_joining (hc ▸ by decide)]

theorem Block.stored : ∀ {ts : List Token} {n : Node}, Block b ts n →
    n.storedTokens = accountable ts
  | _, _, .intro hl hst hr => by
    rw [Node.storedTokens, hst.stored, List.cons_append, accountable_cons (hl ▸ by decide),
      accountable_append, accountable_cons_joining (hr ▸ by decide), accountable_nil,
      List.append_nil]

theorem Statements.stored : ∀ {ts : List Token} {ns : List Node}, Statements b ts ns →
    Node.storedTokensAll ns = accountable ts
  | _, _, .nil => rfl
  | _, _, .semicolon ht hst => by
    rw [hst.stored, accountable_cons_joining (ht ▸ by decide)]
  | _, _, .cons hn _ hst => by
    rw [Node.storedTokensAll, hn.stored, hst.stored, accountable_append]

theorem Statement.stored : ∀ {ts : List Token} {n : Node}, Statement b ts n →
    n.storedTokens = accountable ts
  | _, _, .letStatement hw hx ha he => by
    rw [Node.storedTokens, he.stored, accountable_cons (hw ▸ by decide),
      accountable_cons (hx ▸ by decide), accountable_cons_joining (ha ▸ by decide)]
  | _, _, .returnValue hw he => by
    rw [Node.storedTokens, he.stored, accountable_cons (hw ▸ by decide)]
  | _, _, .returnBare hw => by
    rw [Node.storedTokens, accountable_cons (hw ▸ by decide), accountable_nil]
  | _, _, .expression he => by
    rw [Node.storedTokens, he.stored]

end

/-! ## Where statements begin -/

/-- The tokens are statements one behind the other with semicolons in between, and each statement
keeps the first token of its stretch. -/
inductive Headed (b : Binding) : List Token → List Node → Prop where
  | nil : Headed b [] []
  | semicolon {t : Token} {ts : List Token} {ns : List Node} : t.kind = .semicolon →
      Headed b ts ns → Headed b (t :: ts) ns
  | cons {t : Token} {ss ts : List Token} {n : Node} {ns : List Node} :
      Statement b (t :: ss) n → n.token? = some t → Separated n ts → Headed b ts ns →
      Headed b (t :: ss ++ ts) (n :: ns)

theorem Statement.token_eq {ts : List Token} {n : Node} (h : Statement b ts n) :
    ∃ t ss, ts = t :: ss ∧ n.token? = some t := by
  cases h <;> exact ⟨_, _, rfl, rfl⟩

theorem Statements.headed : ∀ {ts : List Token} {ns : List Node}, Statements b ts ns →
    Headed b ts ns
  | _, _, .nil => .nil
  | _, _, .semicolon ht hst => .semicolon ht hst.headed
  | _, _, .cons hn hsep hst => by
    obtain ⟨t, ss, rfl, ht⟩ := hn.token_eq
    exact .cons hn ht hsep hst.headed

/-- Where `n` is a block, the tokens from its brace to a closing one stand together among `ts`, and
those in between are its statements. -/
def BlockHeaded (b : Binding) (ts : List Token) (n : Node) : Prop :=
  ∀ l ms, n = .block l ms → ∃ us r, (l :: us ++ [r]) <:+: ts ∧ r.kind = .rbrace ∧ Headed b us ms

theorem BlockHeaded.of_ne {ts : List Token} {n : Node} (h : ∀ l ms, n ≠ .block l ms) :
    BlockHeaded b ts n := fun l ms hn => absurd hn (h l ms)

section
variable {whole ts us : List Token} {t : Token}

theorem infix_before (h : ts ++ us <:+: whole) : ts <:+: whole :=
  (List.prefix_append ts us).isInfix.trans h

theorem infix_behind (h : ts ++ us <:+: whole) : us <:+: whole :=
  (List.suffix_append ts us).isInfix.trans h

theorem infix_tail (h : t :: ts <:+: whole) : ts <:+: whole :=
  (List.suffix_cons t ts).isInfix.trans h

theorem infix_enclosed {r : Token} (h : t :: ts ++ [r] <:+: whole) : ts <:+: whole :=
  infix_tail (infix_before h)

mutual

theorem Expr.blockHeaded : ∀ {k : Nat} {ts : List Token} {n : Node}, Expr b k ts n →
    ts <:+: whole → n.Everywhere (BlockHeaded b whole)
  | _, _, _, .ident _, _ | _, _, _, .integer _ _, _ | _, _, _, .string _, _
  | _, _, _, .trueWord _, _ | _, _, _, .falseWord _, _ => .leaf (.of_ne fun _ _ => nofun) rfl
  | _, _, _, .group _ he _, hs => he.blockHeaded (infix_enclosed hs)
  | _, _, _, .array _ hi _, hs =>
    .intro (.of_ne fun _ _ => nofun) (hi.blockHeaded (infix_enclosed hs))
  | _, _, _, .prefixOp _ _ he, hs =>
    .one (.of_ne fun _ _ => nofun) rfl (he.blockHeaded (infix_tail hs))
  | _, _, _, .infixOp _ _ hl hr, hs =>
    .two (.of_ne fun _ _ => nofun) rfl (hl.blockHeaded (infix_before hs))
      (hr.blockHeaded (infix_tail (infix_behind hs)))
  | _, _, _, .conditional _ _ hc _ hb, hs =>
    .two (.of_ne fun _ _ => nofun) rfl (hc.blockHeaded (infix_tail (infix_tail (infix_before hs))))
      (hb.blockHeaded (infix_tail (infix_behind hs)))
  | _, _, _, .alternative _ _ hc _ hb _ hd, hs => by
    have hfirst := infix_before hs
    have hconsequence := hb.blockHeaded (infix_tail (infix_behind hfirst))
    have halternative := hd.blockHeaded (infix_tail (infix_behind hs))
    refine .intro (.of_ne fun _ _ => nofun) (List.forall_mem_cons.mpr ⟨?_, ?_⟩)
    · exact hc.blockHeaded (infix_tail (infix_tail (infix_before hfirst)))
    · exact List.forall_mem_cons.mpr ⟨hconsequence, List.forall_mem_singleton.mpr halternative⟩
  | _, _, _, .function _ _ _ _ hb, hs =>
    .one (.of_ne fun _ _ => nofun) rfl (hb.blockHeaded (infix_tail (infix_behind hs)))
  | _, _, _, .call hf _ hi _, hs => by
    refine .intro (.of_ne fun _ _ => nofun) (List.forall_mem_cons.mpr ⟨?_, ?_⟩)
    · exact hf.blockHeaded (infix_before hs)
    · exact hi.blockHeaded (infix_enclosed (infix_behind hs))
  | _, _, _, .index hc _ he _, hs =>
    .two (.of_ne fun _ _ => nofun) rfl (hc.blockHeaded (infix_before hs))
      (he.blockHeaded (infix_enclosed (infix_behind hs)))

theorem Items.blockHeaded : ∀ {ts : List Token} {ns : List Node}, Items b ts ns →
    ts <:+: whole → ∀ n ∈ ns, n.Everywhere (BlockHeaded b whole)
  | _, _, .nil, _ => fun _ hn => absurd hn List.not_mem_nil
  | _, _, .one he, hs => List.forall_mem_singleton.mpr (he.blockHeaded hs)
  | _, _, .cons he _ hi _, hs => List.forall_mem_cons.mpr
    ⟨he.blockHeaded (infix_before hs), hi.blockHeaded (infix_tail (infix_behind hs))⟩

theorem Block.blockHeaded : ∀ {ts : List Token} {n : Node}, Block b ts n →
    ts <:+: whole → n.Everywhere (BlockHeaded b whole)
  | _, _, .intro _ hst hr, hs => by
    refine .intro ?_ (hst.blockHeaded (infix_enclosed hs))
    rintro l ms ⟨⟩
    exact ⟨_, _, hs, hr, hst.headed⟩

theorem Statements.blockHeaded : ∀ {ts : List Token} {ns : List Node}, Statements b ts ns →
    ts <:+: whole → ∀ n ∈ ns, n.Everywhere (BlockHeaded b whole)
  | _, _, .nil, _ => fun _ hn => absurd hn List.not_mem_nil
  | _, _, .semicolon _ hst, hs => hst.blockHeaded (infix_tail hs)
  | _, _, .cons hn _ hst, hs => List.forall_mem_cons.mpr
    ⟨hn.blockHeaded (infix_before hs), hst.blockHeaded (infix_behind hs)⟩

theorem Statement.blockHeaded : ∀ {ts : List Token} {n : Node}, Statement b ts n →
    ts <:+: whole → n.Everywhere (BlockHeaded b whole)
  | _, _, .letStatement _ _ _ he, hs =>
    .one (.of_ne fun _ _ => nofun) rfl (he.blockHeaded (infix_tail (infix_tail (infix_tail hs))))
  | _, _, .returnValue _ he, hs =>
    .one (.of_ne fun _ _ => nofun) rfl (he.blockHeaded (infix_tail hs))
  | _, _, .returnBare _, _ => .leaf (.of_ne fun _ _ => nofun) rfl
  | _, _, .expression he, hs => .one (.of_ne fun _ _ => nofun) rfl (he.blockHeaded hs)

end

end

end Grammar

/-- The tokens that the tree of a source without errors stores, in its order, are the tokens of the
source in theirs, all but those that only hold others together; and each statement, at the top and in
every block, keeps the first token of its stretch of the source. -/
theorem tokens_accounted_for {source : String} {ns : List Node}
    (h : parse source = .ok ⟨ns, []⟩) :
    (Node.program ns).storedTokens = accountable (tokenize source).toList ∧
    Headed .ranked (tokenize source).tokens ns ∧
    (Node.program ns).Everywhere (BlockHeaded .ranked (tokenize source).tokens) := by
  have hst := derived_of_parse h
  obtain ⟨heof, -⟩ := tokenize_spelled source
  refine ⟨?_, hst.headed, .intro (.of_ne fun _ _ => nofun) (hst.blockHeaded List.infix_rfl)⟩
  rw [Node.storedTokens, hst.stored, TokenStream.toList, accountable_append,
    accountable_cons_joining (heof ▸ by decide), accountable_nil, List.append_nil]

/-- A statement in a block that begins with a parenthesis, a call and an index. -/
theorem tokens_accounted_for_function : ∃ ns : List Node,
    parse "let f = fn(a, b) { (a) + b; }; f(1, [2][0])" = .ok ⟨ns, []⟩ ∧
    ((Node.program ns).storedTokens =
        accountable (tokenize "let f = fn(a, b) { (a) + b; }; f(1, [2][0])").toList ∧
      Headed .ranked (tokenize "let f = fn(a, b) { (a) + b; }; f(1, [2][0])").tokens ns ∧
      (Node.program ns).Everywhere
        (BlockHeaded .ranked (tokenize "let f = fn(a, b) { (a) + b; }; f(1, [2][0])").tokens)) ∧
    (Node.program ns).storedTokens.map Token.literal =
      ["let", "f", "fn", "a", "b", "\x7b", "a", "+", "b", "f", "1", "[", "2", "[", "0"] := by
  obtain ⟨ns, hns, hliterals⟩ : ∃ ns : List Node,
      parse "let f = fn(a, b) { (a) + b; }; f(1, [2][0])" = .ok ⟨ns, []⟩ ∧
      (Node.program ns).storedTokens.map Token.literal =
        ["let", "f", "fn", "a", "b", "\x7b", "a", "+", "b", "f", "1", "[", "2", "[", "0"] :=
    ⟨_, rfl, rfl⟩
  exact ⟨ns, hns, tokens_accounted_for hns, hliterals⟩

end Simian
