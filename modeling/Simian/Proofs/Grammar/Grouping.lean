import Simian.Proofs.Grammar

/-!
# Grouping operators

Which token lists are derived does not depend on how operators group. Whatever groups as
operators bind is a derivation of the grammar without ranks, of the same tree. Conversely an
operator may be put before, behind or between expressions that group as operators bind, and the
whole can be grouped so again, though of another tree: an infix operator sinks along the right
edge of its left operand, a prefix operator along the left edge of its operand, and the brackets
of a call or an index along the right edge of what they stand behind.
-/

namespace Simian.Grammar

set_option autoImplicit false

/-! ## From ranks to none -/

mutual

theorem Expr.free {k j : Nat} {ts : List Token} {n : Node} :
    Expr .ranked k ts n → Expr .free j ts n
  | .ident h => .ident h
  | .integer h hv => .integer h hv
  | .string h => .string h
  | .trueWord h => .trueWord h
  | .falseWord h => .falseWord h
  | .group hl he hr => .group hl he.free hr
  | .array hl hi hr => .array hl hi.free hr
  | .prefixOp h _ he => .prefixOp h (fun hb => nomatch hb) he.free
  | .infixOp h _ hl hr => .infixOp h (fun hb => nomatch hb) hl.free hr.free
  | .conditional hw hl hc hr hb => .conditional hw hl hc.free hr hb.free
  | .alternative hw hl hc hr hb he hd => .alternative hw hl hc.free hr hb.free he hd.free
  | .function hw hl hp hr hb => .function hw hl hp hr hb.free
  | .call hf hl hi hr => .call hf.free hl hi.free hr
  | .index hc hl he hr => .index hc.free hl he.free hr

theorem Items.free {ts : List Token} {ns : List Node} :
    Items .ranked ts ns → Items .free ts ns
  | .nil => .nil
  | .one he => .one he.free
  | .cons he hc hi hne => .cons he.free hc hi.free hne

theorem Block.free {ts : List Token} {n : Node} : Block .ranked ts n → Block .free ts n
  | .intro hl hs hr => .intro hl hs.free hr

theorem Statements.free {ts : List Token} {ns : List Node} :
    Statements .ranked ts ns → Statements .free ts ns
  | .nil => .nil
  | .semicolon h hs => .semicolon h hs.free
  | .cons hn hsep hs => .cons hn.free hsep hs.free

theorem Statement.free {ts : List Token} {n : Node} :
    Statement .ranked ts n → Statement .free ts n
  | .letStatement hw hx ha he => .letStatement hw hx ha he.free
  | .returnValue hw he => .returnValue hw he.free
  | .returnBare hw => .returnBare hw
  | .expression he => .expression he.free

end

/-! ## From no ranks to ranks -/

/-- The tokens are an expression of least rank `k`, of whatever tree. -/
def Derives (k : Nat) (ts : List Token) : Prop := ∃ n, Expr .ranked k ts n

/-- How an expression of least rank `k` is put together, so far as its outermost operator goes. -/
inductive Top (k : Nat) : List Token → Prop where
  | closed {ts : List Token} : (∀ j, Derives j ts) → Top k ts
  | prefixOp {t : Token} {ts : List Token} : IsPrefix t.kind → k ≤ Precedence.unary.rank →
      Derives Precedence.unary.rank ts → Top k (t :: ts)
  | infixOp {t : Token} {ls rs : List Token} : IsInfix t.kind →
      k ≤ (Precedence.ofKind t.kind).rank → Derives (Precedence.ofKind t.kind).rank ls →
      Derives ((Precedence.ofKind t.kind).rank + 1) rs → Top k (ls ++ t :: rs)

section
variable {k j : Nat} {ts us : List Token} {t : Token}

theorem Derives.mono (h : Derives k ts) (hj : j ≤ k) : Derives j ts := by
  obtain ⟨n, hn⟩ := h
  exact ⟨n, hn.mono hj⟩

theorem Derives.ne_nil (h : Derives k ts) : ts ≠ [] := by
  obtain ⟨n, hn⟩ := h
  exact hn.ne_nil

theorem Derives.top (h : Derives k ts) : Top k ts := by
  obtain ⟨n, hn⟩ := h
  cases hn with
  | ident h => exact .closed fun _ => ⟨_, .ident h⟩
  | integer h hv => exact .closed fun _ => ⟨_, .integer h hv⟩
  | string h => exact .closed fun _ => ⟨_, .string h⟩
  | trueWord h => exact .closed fun _ => ⟨_, .trueWord h⟩
  | falseWord h => exact .closed fun _ => ⟨_, .falseWord h⟩
  | group hl he hr => exact .closed fun _ => ⟨_, .group hl he hr⟩
  | array hl hi hr => exact .closed fun _ => ⟨_, .array hl hi hr⟩
  | prefixOp h ha he => exact .prefixOp h (ha rfl) ⟨_, he⟩
  | infixOp h ha hl hr => exact .infixOp h (ha rfl) ⟨_, hl⟩ ⟨_, hr⟩
  | conditional hw hl hc hr hb => exact .closed fun _ => ⟨_, .conditional hw hl hc hr hb⟩
  | alternative hw hl hc hr hb he hd =>
    exact .closed fun _ => ⟨_, .alternative hw hl hc hr hb he hd⟩
  | function hw hl hp hr hb => exact .closed fun _ => ⟨_, .function hw hl hp hr hb⟩
  | call hf hl hi hr => exact .closed fun _ => ⟨_, .call hf hl hi hr⟩
  | index hc hl he hr => exact .closed fun _ => ⟨_, .index hc hl he hr⟩

theorem Derives.infixOp (ht : IsInfix t.kind) (hk : k ≤ (Precedence.ofKind t.kind).rank)
    (hl : Derives (Precedence.ofKind t.kind).rank ts)
    (hr : Derives ((Precedence.ofKind t.kind).rank + 1) us) : Derives k (ts ++ t :: us) := by
  obtain ⟨l, hl⟩ := hl
  obtain ⟨r, hr⟩ := hr
  exact ⟨_, .infixOp ht (fun _ => hk) hl hr⟩

theorem Derives.prefixOp (ht : IsPrefix t.kind) (hk : k ≤ Precedence.unary.rank)
    (h : Derives Precedence.unary.rank ts) : Derives k (t :: ts) := by
  obtain ⟨n, hn⟩ := h
  exact ⟨_, .prefixOp ht (fun _ => hk) hn⟩

theorem IsInfix.rank_lt_unary {a : Kind} (h : IsInfix a) :
    (Precedence.ofKind a).rank < Precedence.unary.rank := by
  revert h
  cases a <;> decide

theorem lowest_le_rank (p : Precedence) : Precedence.lowest.rank ≤ p.rank := by
  cases p <;> decide

/-- One more operand at the right, for an operator that may stand outside. -/
theorem Derives.snoc (h : Derives k ts) (ht : IsInfix t.kind)
    (hk : k ≤ (Precedence.ofKind t.kind).rank)
    (hus : Derives ((Precedence.ofKind t.kind).rank + 1) us) : Derives k (ts ++ t :: us) := by
  induction hn : ts.length using Nat.strongRecOn generalizing k ts with
  | _ n ih =>
    cases h.top with
    | closed hall => exact .infixOp ht hk (hall _) hus
    | prefixOp hp hkp he =>
      exact .infixOp ht hk (.prefixOp hp (Nat.le_of_lt ht.rank_lt_unary) he) hus
    | @infixOp o ls rs ho hko hl hr =>
      by_cases hle : (Precedence.ofKind t.kind).rank ≤ (Precedence.ofKind o.kind).rank
      · exact .infixOp ht hk (.infixOp ho hle hl hr) hus
      · rw [List.append_assoc]
        refine .infixOp ho hko hl (ih _ ?_ hr (Nat.lt_of_not_le hle) rfl)
        rw [← hn, List.length_append, List.length_cons]
        omega

theorem Derives.join (hl : Derives Precedence.lowest.rank ts) (ht : IsInfix t.kind)
    (hr : Derives Precedence.lowest.rank us) : Derives Precedence.lowest.rank (ts ++ t :: us) := by
  induction hn : us.length using Nat.strongRecOn generalizing us with
  | _ n ih =>
    have hk := lowest_le_rank (.ofKind t.kind)
    cases hr.top with
    | closed hall => exact hl.snoc ht hk (hall _)
    | prefixOp hp _ he => exact hl.snoc ht hk (.prefixOp hp ht.rank_lt_unary he)
    | @infixOp o ls rs ho _ hls hrs =>
      have hle := lowest_le_rank (.ofKind o.kind)
      have hleft := ih ls.length (by rw [← hn, List.length_append, List.length_cons]; omega)
        (hls.mono hle) rfl
      have hall := hleft.snoc ho hle hrs
      rwa [List.append_assoc] at hall

theorem Derives.prepend (ht : IsPrefix t.kind) (h : Derives k ts)
    (hk : k ≤ Precedence.unary.rank) : Derives k (t :: ts) := by
  induction hn : ts.length using Nat.strongRecOn generalizing k ts with
  | _ n ih =>
    cases h.top with
    | closed hall => exact .prefixOp ht hk (hall _)
    | prefixOp hp _ he => exact .prefixOp ht hk (.prefixOp hp (Nat.le_refl _) he)
    | @infixOp o ls rs ho hko hl hr =>
      refine .infixOp ho hko (ih ls.length ?_ hl (Nat.le_of_lt ho.rank_lt_unary) rfl) hr
      rw [← hn, List.length_append, List.length_cons]
      omega

/-- Brackets behind any expression, if they may stand behind one without operators outside. -/
theorem Derives.postpend (h : Derives k ts)
    (hus : ∀ {j ts n}, Expr .ranked Precedence.call.rank ts n → Derives j (ts ++ us)) :
    Derives k (ts ++ us) := by
  induction hn : ts.length using Nat.strongRecOn generalizing k ts with
  | _ n ih =>
    cases h.top with
    | closed hall =>
      obtain ⟨m, hm⟩ := hall Precedence.call.rank
      exact hus hm
    | prefixOp hp hkp he =>
      refine .prefixOp hp hkp (ih _ ?_ he rfl)
      rw [← hn, List.length_cons]
      exact Nat.lt_succ_self _
    | @infixOp o ls rs ho hko hl hr =>
      rw [List.append_assoc]
      refine .infixOp ho hko hl (ih _ ?_ hr rfl)
      rw [← hn, List.length_append, List.length_cons]
      omega

end

mutual

/-- An expression that groups as it likes can be grouped as operators bind. -/
theorem Expr.regroup {k : Nat} {ts : List Token} {n : Node} :
    Expr .free k ts n → Derives Precedence.lowest.rank ts
  | .ident h => ⟨_, .ident h⟩
  | .integer h hv => ⟨_, .integer h hv⟩
  | .string h => ⟨_, .string h⟩
  | .trueWord h => ⟨_, .trueWord h⟩
  | .falseWord h => ⟨_, .falseWord h⟩
  | .group hl he hr => by
    obtain ⟨n, hn⟩ := he.regroup
    exact ⟨_, .group hl hn hr⟩
  | .array hl hi hr => by
    obtain ⟨ns, hns, -⟩ := hi.regroup
    exact ⟨_, .array hl hns hr⟩
  | .prefixOp h _ he => he.regroup.prepend h (by decide)
  | .infixOp h _ hl hr => hl.regroup.join h hr.regroup
  | .conditional hw hl hc hr hb => by
    obtain ⟨c, hc⟩ := hc.regroup
    obtain ⟨b, hb⟩ := hb.regroup
    exact ⟨_, .conditional hw hl hc hr hb⟩
  | .alternative hw hl hc hr hb he hd => by
    obtain ⟨c, hc⟩ := hc.regroup
    obtain ⟨b, hb⟩ := hb.regroup
    obtain ⟨d, hd⟩ := hd.regroup
    exact ⟨_, .alternative hw hl hc hr hb he hd⟩
  | .function hw hl hp hr hb => by
    obtain ⟨b, hb⟩ := hb.regroup
    exact ⟨_, .function hw hl hp hr hb⟩
  | .call hf hl hi hr => by
    obtain ⟨ns, hns, -⟩ := hi.regroup
    exact hf.regroup.postpend fun hg => ⟨_, .call hg hl hns hr⟩
  | .index hc hl he hr => by
    obtain ⟨n, hn⟩ := he.regroup
    exact hc.regroup.postpend fun hg => ⟨_, .index hg hl hn hr⟩

theorem Items.regroup {ts : List Token} {ns : List Node} :
    Items .free ts ns → ∃ ms, Items .ranked ts ms ∧ (ns ≠ [] → ms ≠ [])
  | .nil => ⟨[], .nil, id⟩
  | .one he => by
    obtain ⟨n, hn⟩ := he.regroup
    exact ⟨[n], .one hn, fun _ => List.cons_ne_nil _ _⟩
  | .cons he hc hi hne => by
    obtain ⟨n, hn⟩ := he.regroup
    obtain ⟨ms, hms, hms'⟩ := hi.regroup
    exact ⟨n :: ms, .cons hn hc hms (hms' hne), fun _ => List.cons_ne_nil _ _⟩

theorem Block.regroup {ts : List Token} {n : Node} :
    Block .free ts n → ∃ m, Block .ranked ts m
  | .intro hl hs hr => by
    obtain ⟨ms, hms⟩ := hs.regroup
    exact ⟨_, .intro hl hms hr⟩

theorem Statements.regroup {ts : List Token} {ns : List Node} :
    Statements .free ts ns → ∃ ms, Statements .ranked ts ms
  | .nil => ⟨[], .nil⟩
  | .semicolon h hs => by
    obtain ⟨ms, hms⟩ := hs.regroup
    exact ⟨ms, .semicolon h hms⟩
  | .cons hn hsep hs => by
    obtain ⟨m, hm, hbare⟩ := hn.regroup
    obtain ⟨ms, hms⟩ := hs.regroup
    refine ⟨m :: ms, .cons hm (fun t ht hk => ?_) hms⟩
    obtain ⟨hcont, hnot⟩ := hsep t ht hk
    exact ⟨hcont, fun w hw => hnot w (hbare w hw)⟩

theorem Statement.regroup {ts : List Token} {n : Node} :
    Statement .free ts n → ∃ m, Statement .ranked ts m ∧
      ∀ w, m = .returnStatement w none → n = .returnStatement w none
  | .letStatement hw hx ha he => by
    obtain ⟨n, hn⟩ := he.regroup
    exact ⟨_, .letStatement hw hx ha hn, fun _ h => nomatch h⟩
  | .returnValue hw he => by
    obtain ⟨n, hn⟩ := he.regroup
    exact ⟨_, .returnValue hw hn, fun _ h => nomatch h⟩
  | .returnBare hw => ⟨_, .returnBare hw, fun _ h => h⟩
  | .expression he => by
    obtain ⟨n, hn⟩ := he.regroup
    exact ⟨_, .expression hn, fun _ h => nomatch h⟩

end

end Simian.Grammar
