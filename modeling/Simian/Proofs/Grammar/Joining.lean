import Simian.Proofs.Grammar.Complete
import Simian.Proofs.Parser.Built
import Simian.Proofs.Shape

/-!
# Derivations put together

A derivation looks at the kinds and literals of its tokens only, so moving the tokens moves the
tree with them. Behind a semicolon statements can stand whatever was before. The tokens of a tree
that was built by rules are ones with which a source can be read again.
-/

namespace Simian.Grammar

open Text
set_option autoImplicit false

/-! ## Tokens replaced by their like -/

/-- A change of tokens that keeps their kinds and literals. -/
def Keeping (f : Token → Token) : Prop := ∀ t, (f t).kind = t.kind ∧ (f t).literal = t.literal

section
variable {f : Token → Token} (hf : Keeping f)
include hf

theorem Keeping.kind {t : Token} {k : Kind} (h : t.kind = k) : (f t).kind = k := (hf t).1.trans h

theorem Keeping.numeralValue (t : Token) : numeralValue (f t) = numeralValue t := by
  rw [Grammar.numeralValue, (hf t).2]
  rfl

theorem Names.mapTokens {ts : List Token} {is : List Ident} (h : Names ts is) :
    Names (ts.map f) (is.map fun i => ⟨f i.token, i.name⟩) := by
  have one {t : Token} (ht : t.kind = .ident) (rest : List Ident) :
      (⟨f t, (f t).literal⟩ : Ident) :: rest = ⟨f t, t.literal⟩ :: rest := by rw [(hf t).2]
  induction h with
  | nil => exact .nil
  | one ht =>
    rw [List.map_singleton, List.map_singleton, ← one ht]
    exact .one (hf.kind ht)
  | cons ht hc _ hne ih =>
    rw [List.map_cons, List.map_cons, List.map_cons, ← one ht]
    exact .cons (hf.kind ht) (hf.kind hc) ih (by simpa using hne)

theorem Separated.mapTokens {n : Node} {ts : List Token} (h : Separated n ts) :
    Separated (n.mapTokens f) (ts.map f) := by
  intro u hu hk
  rw [List.head?_map] at hu
  obtain ⟨t, ht, rfl⟩ := Option.map_eq_some_iff.mp hu
  rw [(hf t).1] at hk ⊢
  obtain ⟨hcont, hnot⟩ := h t ht hk
  refine ⟨hcont, fun w hw => ?_⟩
  cases n with
  | returnStatement v value =>
    cases value with
    | none => exact hnot v rfl
    | some e => cases hw
  | conditional t c a b => cases b <;> cases hw
  | _ => cases hw

variable {b : Binding}

mutual

theorem Expr.mapTokens {k : Nat} {ts : List Token} {n : Node} :
    Expr b k ts n → Expr b k (ts.map f) (n.mapTokens f)
  | .ident (t := t) h => by
    have hx := Expr.ident (b := b) (k := k) (hf.kind h)
    rwa [(hf t).2] at hx
  | .integer (t := t) h hv => by
    have hx := Expr.integer (b := b) (k := k) (hf.kind h) (by rwa [hf.numeralValue])
    rwa [hf.numeralValue] at hx
  | .string (t := t) h => by
    have hx := Expr.string (b := b) (k := k) (hf.kind h)
    rwa [(hf t).2] at hx
  | .trueWord h => .trueWord (hf.kind h)
  | .falseWord h => .falseWord (hf.kind h)
  | .group hl he hr => by
    rw [List.map_append, List.map_cons]
    exact .group (hf.kind hl) he.mapTokens (hf.kind hr)
  | .array hl hi hr => by
    rw [List.map_append, List.map_cons, Node.mapTokens, Node.mapTokensAll_eq_map]
    exact .array (hf.kind hl) hi.mapTokens (hf.kind hr)
  | .prefixOp (t := t) h ha he => by
    have hx := Expr.prefixOp (b := b) (k := k) ((hf t).1.symm ▸ h) ha he.mapTokens
    rwa [(hf t).2] at hx
  | .infixOp (t := t) h ha hl hr => by
    rw [List.map_append, List.map_cons]
    have hkind := (hf t).1.symm
    have hx := Expr.infixOp (b := b) (k := k) (hkind ▸ h) (hkind ▸ ha)
      (hkind ▸ hl.mapTokens) (hkind ▸ hr.mapTokens)
    rwa [(hf t).2] at hx
  | .conditional hw hl hc hr hb => by
    rw [List.map_append, List.map_cons, List.map_cons, List.map_cons]
    exact .conditional (hf.kind hw) (hf.kind hl) hc.mapTokens (hf.kind hr) hb.mapTokens
  | .alternative hw hl hc hr hb he hd => by
    rw [List.map_append, List.map_append, List.map_cons, List.map_cons, List.map_cons,
      List.map_cons]
    exact .alternative (hf.kind hw) (hf.kind hl) hc.mapTokens (hf.kind hr) hb.mapTokens
      (hf.kind he) hd.mapTokens
  | .function hw hl hp hr hb => by
    rw [List.map_append, List.map_cons, List.map_cons, List.map_cons]
    exact .function (hf.kind hw) (hf.kind hl) (hp.mapTokens hf) (hf.kind hr) hb.mapTokens
  | .call hg hl hi hr => by
    rw [List.map_append, List.map_append, List.map_cons, Node.mapTokens,
      Node.mapTokensAll_eq_map]
    exact .call hg.mapTokens (hf.kind hl) hi.mapTokens (hf.kind hr)
  | .index hc hl he hr => by
    rw [List.map_append, List.map_append, List.map_cons]
    exact .index hc.mapTokens (hf.kind hl) he.mapTokens (hf.kind hr)

theorem Items.mapTokens {ts : List Token} {ns : List Node} :
    Items b ts ns → Items b (ts.map f) (ns.map (Node.mapTokens f))
  | .nil => .nil
  | .one he => .one he.mapTokens
  | .cons he hc hi hne => by
    rw [List.map_append, List.map_cons]
    exact .cons he.mapTokens (hf.kind hc) hi.mapTokens (by simpa using hne)

theorem Block.mapTokens {ts : List Token} {n : Node} :
    Block b ts n → Block b (ts.map f) (n.mapTokens f)
  | .intro hl hs hr => by
    rw [List.map_append, List.map_cons, Node.mapTokens, Node.mapTokensAll_eq_map]
    exact .intro (hf.kind hl) hs.mapTokens (hf.kind hr)

theorem Statements.mapTokens {ts : List Token} {ns : List Node} :
    Statements b ts ns → Statements b (ts.map f) (ns.map (Node.mapTokens f))
  | .nil => .nil
  | .semicolon h hs => .semicolon (hf.kind h) hs.mapTokens
  | .cons hn hsep hs => by
    rw [List.map_append]
    exact .cons hn.mapTokens (hsep.mapTokens hf) hs.mapTokens

theorem Statement.mapTokens {ts : List Token} {n : Node} :
    Statement b ts n → Statement b (ts.map f) (n.mapTokens f)
  | .letStatement (x := x) hw hx ha he => by
    have hs := Statement.letStatement (b := b) (hf.kind hw) (hf.kind hx) (hf.kind ha) he.mapTokens
    rwa [(hf x).2] at hs
  | .returnValue hw he => .returnValue (hf.kind hw) he.mapTokens
  | .returnBare hw => .returnBare (hf.kind hw)
  | .expression he => .expression he.mapTokens

end

end

/-! ## Statements behind a semicolon -/

theorem Separated.append {n : Node} {ts us : List Token} {t : Token} (h : Separated n ts)
    (ht : t.kind = .semicolon) : Separated n (ts ++ t :: us) := by
  intro u hu hk
  cases ts with
  | nil =>
    cases hu
    exact absurd ht hk
  | cons v vs => exact h u hu hk

theorem Statements.append {b : Binding} {us : List Token} {ms : List Node} {t : Token}
    (ht : t.kind = .semicolon) (hus : Statements b us ms) :
    ∀ {ts : List Token} {ns : List Node}, Statements b ts ns →
      Statements b (ts ++ t :: us) (ns ++ ms)
  | _, _, .nil => .semicolon ht hus
  | _, _, .semicolon h hs => .semicolon h (Statements.append ht hus hs)
  | _, _, .cons hn hsep hs => by
    rw [List.append_assoc]
    exact .cons hn (hsep.append ht) (Statements.append ht hus hs)

/-! ## The tokens of a tree that was built -/

/-- No illegal token, and a numeral only if it can be read. -/
def Admissible (t : Token) : Prop := t.kind ≠ .illegal ∧ Readable t

theorem Admissible.of_kind {t : Token} {k : Kind} (h : t.kind = k)
    (hk : k ≠ .illegal ∧ k ≠ .int) : Admissible t := by
  subst h
  exact ⟨hk.1, fun hint => absurd hint hk.2⟩

/-- All of the tokens are admissible. -/
def AllAdmissible (ts : List Token) : Prop := ∀ t ∈ ts, Admissible t

section
variable {t l r : Token} {ts us : List Token}

theorem AllAdmissible.nil : AllAdmissible [] := fun _ ht => absurd ht List.not_mem_nil

theorem AllAdmissible.append (hts : AllAdmissible ts) (hus : AllAdmissible us) :
    AllAdmissible (ts ++ us) := fun t ht => (List.mem_append.mp ht).elim (hts t) (hus t)

theorem AllAdmissible.cons (ht : Admissible t) (hts : AllAdmissible ts) :
    AllAdmissible (t :: ts) := List.forall_mem_cons.mpr ⟨ht, hts⟩

theorem AllAdmissible.kind {k : Kind} (h : t.kind = k) (hk : k ≠ .illegal ∧ k ≠ .int)
    (hts : AllAdmissible ts) : AllAdmissible (t :: ts) := .cons (.of_kind h hk) hts

theorem AllAdmissible.enclosed {j k : Kind} (hl : l.kind = j) (hts : AllAdmissible ts)
    (hr : r.kind = k) (hj : j ≠ .illegal ∧ j ≠ .int) (hk : k ≠ .illegal ∧ k ≠ .int) :
    AllAdmissible (l :: ts ++ [r]) := (AllAdmissible.kind hl hj hts).append (.kind hr hk .nil)

theorem AllAdmissible.headed {w : Token} {k : Kind} (hw : w.kind = k)
    (hk : k ≠ .illegal ∧ k ≠ .int) (hl : l.kind = .lparen) (hts : AllAdmissible ts)
    (hr : r.kind = .rparen) (hus : AllAdmissible us) :
    AllAdmissible (w :: l :: ts ++ r :: us) :=
  (AllAdmissible.kind hw hk (.kind hl (by decide) hts)).append (.kind hr (by decide) hus)

theorem IsPrefix.admissible (h : IsPrefix t.kind) : Admissible t := by
  rcases h with h | h <;> exact .of_kind h (by decide)

theorem IsInfix.admissible (h : IsInfix t.kind) : Admissible t := by
  refine .of_kind rfl ?_
  revert h
  cases t.kind <;> decide

theorem Names.admissible {is : List Ident} (h : Names ts is) : AllAdmissible ts := by
  induction h with
  | nil => exact .nil
  | one hk => exact .kind hk (by decide) .nil
  | cons hk hc _ _ ih => exact .kind hk (by decide) (.kind hc (by decide) ih)

end

variable {b : Binding}

mutual

theorem Expr.admissible {k : Nat} {ts : List Token} {n : Node} (hn : n.Built) :
    Expr b k ts n → AllAdmissible ts
  | .ident h => .kind h (by decide) .nil
  | .integer h _ => by
    cases hn with
    | integer hread _ => exact .cons ⟨by rw [h]; decide, fun _ => hread⟩ .nil
  | .string h => .kind h (by decide) .nil
  | .trueWord h => .kind h (by decide) .nil
  | .falseWord h => .kind h (by decide) .nil
  | .group hl he hr => .enclosed hl (he.admissible hn) hr (by decide) (by decide)
  | .array hl hi hr => by
    cases hn with
    | array hn => exact .enclosed hl (hi.admissible hn) hr (by decide) (by decide)
  | .prefixOp h _ he => by
    cases hn with
    | prefixOp hn => exact .cons h.admissible (he.admissible hn)
  | .infixOp h _ hl hr => by
    cases hn with
    | infixOp hnl hnr =>
      exact (hl.admissible hnl).append (.cons h.admissible (hr.admissible hnr))
  | .conditional hw hl hc hr hb => by
    cases hn with
    | conditional hnc hnb _ =>
      exact .headed hw (by decide) hl (hc.admissible hnc) hr (hb.admissible hnb)
  | .alternative hw hl hc hr hb he hd => by
    cases hn with
    | conditional hnc hnb hnd =>
      have hfirst := AllAdmissible.headed hw (by decide) hl (hc.admissible hnc) hr
        (hb.admissible hnb)
      exact hfirst.append (.kind he (by decide) (hd.admissible (hnd _ rfl)))
  | .function hw hl hp hr hb => .headed hw (by decide) hl hp.admissible hr (hb.admissible hn.body)
  | .call hf hl hi hr => by
    cases hn with
    | call hnf hni =>
      exact (hf.admissible hnf).append
        (.enclosed hl (hi.admissible hni) hr (by decide) (by decide))
  | .index hc hl he hr => by
    cases hn with
    | index hnc hne =>
      exact (hc.admissible hnc).append
        (.enclosed hl (he.admissible hne) hr (by decide) (by decide))

theorem Items.admissible {ts : List Token} {ns : List Node} (hn : ∀ n ∈ ns, n.Built) :
    Items b ts ns → AllAdmissible ts
  | .nil => .nil
  | .one he => he.admissible (hn _ List.mem_cons_self)
  | .cons he hc hi _ => (he.admissible (hn _ List.mem_cons_self)).append
    (.kind hc (by decide) (hi.admissible fun m hm => hn m (List.mem_cons_of_mem _ hm)))

theorem Block.admissible {ts : List Token} {n : Node} (hn : n.Built) :
    Block b ts n → AllAdmissible ts
  | .intro hl hs hr => by
    cases hn with
    | block hn => exact .enclosed hl (hs.admissible hn) hr (by decide) (by decide)

theorem Statements.admissible {ts : List Token} {ns : List Node} (hn : ∀ n ∈ ns, n.Built) :
    Statements b ts ns → AllAdmissible ts
  | .nil => .nil
  | .semicolon h hs => .kind h (by decide) (hs.admissible hn)
  | .cons hs _ hss => (hs.admissible (hn _ List.mem_cons_self)).append
    (hss.admissible fun m hm => hn m (List.mem_cons_of_mem _ hm))

theorem Statement.admissible {ts : List Token} {n : Node} (hn : n.Built) :
    Statement b ts n → AllAdmissible ts
  | .letStatement hw hx ha he => by
    cases hn with
    | letStatement hn =>
      exact .kind hw (by decide) (.kind hx (by decide) (.kind ha (by decide) (he.admissible hn)))
  | .returnValue hw he => by
    cases hn with
    | returnStatement hn => exact .kind hw (by decide) (he.admissible (hn _ rfl))
  | .returnBare hw => .kind hw (by decide) .nil
  | .expression he => by
    cases hn with
    | expressionStatement hn => exact he.admissible hn

end

end Simian.Grammar
