import Simian.Proofs.Grammar.Sound

/-!
# What the grammar derives is read

The other direction: a rule that stands before tokens which the grammar derives takes them, gives
their tree, and needs to know no more of what follows than that it does not continue them. The
premise `Complete n` says so of the expressions of fewer than `n` tokens; every part of an
expression has fewer tokens than the whole.

Where an expression may go on with operators that bind tighter than `p`, reading it comes down to
the loop over these operators, started with the expression itself.
-/

namespace Simian.Grammar

open Text Simian.Parser ParserState
set_option autoImplicit false

/-- A numeral that can be read as what it is. -/
def Readable (t : Token) : Prop :=
  t.kind = .int → readInteger t.literal.toList = .ok (numeralValue t)

theorem readable_of_digits {t : Token} (hne : t.literal.toList ≠ [])
    (hd : ∀ c ∈ t.literal.toList, isDigit c = true)
    (hl : t.literal.toList.length ≤ digitLimit) : Readable t :=
  fun _ => readInteger_of_digits hne hd hl

theorem Readable.faithful {t : Token} (h : Readable t) : Faithful t := by
  intro hk n hn
  rw [h hk] at hn
  cases hn
  rfl

/-- The input ends, and its numerals can be read. -/
structure Legible (s : ParserState) : Prop where
  ends : s.Ends
  readable : ∀ t ∈ s.input.tokens, Readable t

theorem Legible.proper {s : ParserState} (h : Legible s) : Proper s :=
  ⟨h.ends, fun t ht => (h.readable t ht).faithful⟩

theorem Legible.of_reaches {s t : ParserState} (h : Legible s) (hst : Reaches s t) : Legible t :=
  ⟨hst.ends h.ends, fun a ha => h.readable a (hst.input_suffix.subset ha)⟩

theorem Legible.advance {s : ParserState} (h : Legible s) : Legible s.advance :=
  h.of_reaches (.step s)

/-- The operators of an expression of least rank `k` bind tighter than `p`. -/
structure Within (p : Precedence) (k : Nat) : Prop where
  lt_call : p.rank < Precedence.call.rank
  lt_rank : ∀ a, IsInfix a → k ≤ (Precedence.ofKind a).rank → p.rank < (Precedence.ofKind a).rank

theorem Within.mono {p : Precedence} {j k : Nat} (h : Within p k) (hk : k ≤ j) : Within p j :=
  ⟨h.lt_call, fun a ha hj => h.lt_rank a ha (Nat.le_trans hk hj)⟩

theorem Within.lowest : Within .lowest Precedence.lowest.rank := by
  refine ⟨by decide, fun a ha _ => ?_⟩
  revert ha
  cases a <;> decide

theorem Within.unary : Within .unary Precedence.unary.rank := by
  refine ⟨by decide, fun a ha hk => ?_⟩
  revert ha hk
  cases a <;> decide

theorem Within.operator {a : Kind} (h : IsInfix a) :
    Within (.ofKind a) ((Precedence.ofKind a).rank + 1) := by
  refine ⟨?_, fun b _ hb => hb⟩
  revert h
  cases a <;> decide

theorem Within.call {p : Precedence} (h : p.rank < Precedence.call.rank) :
    Within p Precedence.call.rank := by
  refine ⟨h, fun a ha hk => absurd hk (Nat.not_le.mpr ?_)⟩
  revert ha
  cases a <;> decide

/-- A token of kind `a` neither continues an expression of least rank `k` nor is an alternative. -/
def Closes (k : Nat) (a : Kind) : Prop := (Precedence.ofKind a).rank ≤ k ∧ a ≠ .elseWord

instance (k : Nat) (a : Kind) : Decidable (Closes k a) := inferInstanceAs (Decidable (_ ∧ _))

theorem Closes.mono {j k : Nat} {a : Kind} (h : Closes k a) (hk : k ≤ j) : Closes j a :=
  ⟨Nat.le_trans h.1 hk, h.2⟩

def Complete (n : Nat) : Prop :=
  ∀ p k ts m s t, ts.length < n → Expr .ranked k ts m → Legible s → Takes s ts t → Within p k →
    Closes k t.input.peek.kind → rule p s = loop (binds p) (continuation rule) m t

section
variable {n k : Nat} (h : Complete n) {p : Precedence} {s t : ParserState} {ts : List Token}
  {m : Node}
include h

theorem Complete.read (hl : ts.length < n) (he : Expr .ranked k ts m) (hs : Legible s)
    (ht : Takes s ts t) (hp : Within p k) (hk : Closes k t.input.peek.kind)
    (hb : binds p t = false) : rule p s = .ok m t := by
  rw [h p k ts m s t hl he hs ht hp hk]
  exact loop_of_not_again hb

theorem Complete.lowest (hl : ts.length < n) (he : Expr .ranked Precedence.lowest.rank ts m)
    (hs : Legible s) (ht : Takes s ts t) (hk : Closes Precedence.lowest.rank t.input.peek.kind) :
    rule .lowest s = .ok m t :=
  h.read hl he hs ht .lowest hk (decide_eq_false (Nat.not_lt.mpr hk.1))

end

/-! ## Lists -/

def parametersFrom (ps : Array Ident) : Parser (Array Ident) :=
  parameter ps >>= loop (peekIs .comma) parameterRound

def itemsFrom (ns : Array Node) : Parser (Array Node) :=
  rule .lowest >>= fun m => loop (peekIs .comma) (listRound rule) (ns.push m)

section
variable {s t : ParserState} {ts : List Token}

theorem parametersFrom_step {ps : Array Ident} (hk : s.input.peek.kind = .ident) :
    parametersFrom ps s = loop (peekIs .comma) parameterRound
      (ps.push ⟨s.input.peek, s.input.peek.literal⟩) s.advance := by
  have hx : parameter ps s = .ok (ps.push ⟨s.input.peek, s.input.peek.literal⟩) s.advance := by
    rw [parameter, expect_bind (peekIs_iff.mpr hk), cur_bind, advance_cur]
    rfl
  exact bind_of_ok hx

theorem parametersFrom_round {ps : Array Ident} (hs : s.Ends)
    (hc : s.input.peek.kind = .comma) :
    loop (peekIs .comma) parameterRound ps s = parametersFrom ps s.advance :=
  loop_of_again parameterRound_shrinks hs (peekIs_iff.mpr hc) ps

theorem itemsFrom_round {ns : Array Node} (hs : s.Ends) (hc : s.input.peek.kind = .comma) :
    loop (peekIs .comma) (listRound rule) ns s = itemsFrom ns s.advance.advance := by
  rw [loop_of_again listRound_shrinks_rule hs (peekIs_iff.mpr hc)]
  exact congrFun (bind_assoc (rule .lowest) _ _) _

theorem Names.ne_nil {is : List Ident} (h : Names ts is) (hne : is ≠ []) : ts ≠ [] := by
  cases h with
  | nil => exact absurd rfl hne
  | one => exact List.cons_ne_nil _ _
  | cons => exact List.cons_ne_nil _ _

theorem Items.head {b : Binding} {ns : List Node} (h : Items b ts ns) (hne : ns ≠ []) :
    ∃ a as, ts = a :: as ∧ StartsExpr a.kind := by
  cases h with
  | nil => exact absurd rfl hne
  | one he => exact he.head
  | cons he =>
    obtain ⟨a, as, rfl, ha⟩ := he.head
    exact ⟨a, _, rfl, ha⟩

theorem Items.ne_nil {b : Binding} {ns : List Node} (h : Items b ts ns) (hne : ns ≠ []) :
    ts ≠ [] := by
  obtain ⟨a, as, rfl, -⟩ := h.head hne
  exact List.cons_ne_nil a as

theorem parametersFrom_complete {is : List Ident} (hn : Names ts is) (hne : is ≠ []) :
    ∀ {s} ps, s.Ends → Takes s.advance ts t → t.input.peek.kind ≠ .comma →
      parametersFrom ps s = .ok (ps ++ is.toArray) t := by
  induction hn with
  | nil => exact absurd rfl hne
  | one hx =>
    intro s ps hs ht hp
    obtain rfl := ht.eq_of_single
    have hcur := (advance_cur s).symm.trans ht.cur
    rw [parametersFrom_step (hcur ▸ hx), hcur]
    apply (loop_of_not_again (peekIs_eq_false_iff.mpr hp)).trans
    rw [Array.push_eq_append]
  | cons hx hc hn hne' ih =>
    intro s ps hs ht hp
    obtain ⟨hcur, ht⟩ := ht.uncons (List.cons_ne_nil _ _)
    obtain ⟨hcomma, ht⟩ := ht.uncons (hn.ne_nil hne')
    rw [advance_cur] at hcur hcomma
    rw [parametersFrom_step (hcur ▸ hx), hcur, parametersFrom_round hs.advance (hcomma ▸ hc),
      ih hne' _ hs.advance.advance ht hp]
    simp

theorem parameters_complete {is : List Ident} {r : Token} (hn : Names ts is)
    (hr : r.kind = .rparen) (hs : s.Ends) (ht : Takes s.advance (ts ++ [r]) t) :
    parameters s = .ok is t := by
  by_cases hne : is = []
  · subst hne
    cases hn
    obtain rfl := ht.eq_of_single
    have hp : s.input.peek.kind = .rparen := by rw [← advance_cur, ht.cur, hr]
    exact parameters_of_rparen hp
  · obtain ⟨u, hu, hp, rfl⟩ := ht.init (hn.ne_nil hne)
    have hall := parametersFrom_complete hn hne #[] hs hu (by rw [hp, hr]; decide)
    obtain ⟨first, v, hfirst, hloop⟩ := bind_eq_ok_iff.mp hall
    have hnot : s.input.peek.kind ≠ .rparen := by
      rw [(parameter_eq_ok hfirst).1]
      decide
    rw [parameters_of_other hnot, bind_of_ok hfirst, bind_of_ok hloop,
      expect_bind (peekIs_iff.mpr (hp ▸ hr)), Array.empty_append]
    rfl

section
variable {n : Nat} (h : Complete n)
include h

theorem itemsFrom_complete {ns : List Node} (hl : ts.length < n) (hi : Items .ranked ts ns)
    (hne : ns ≠ []) (hs : Legible s) (ht : Takes s ts t)
    (hk : Closes Precedence.lowest.rank t.input.peek.kind) (hc : t.input.peek.kind ≠ .comma)
    (ms : Array Node) : itemsFrom ms s = .ok (ms ++ ns.toArray) t := by
  induction hn : ts.length using Nat.strongRecOn generalizing ts ns s ms with
  | _ l ih =>
    cases hi with
    | nil => exact absurd rfl hne
    | one he =>
      rw [itemsFrom, bind_of_ok (h.lowest hl he hs ht hk),
        loop_of_not_again (peekIs_eq_false_iff.mpr hc), Array.push_eq_append]
    | cons he hcomma hi hne' =>
      obtain ⟨u, hu, hpeek, hrest⟩ := ht.peek he.ne_nil
      obtain ⟨-, hrest⟩ := hrest.uncons (hi.ne_nil hne')
      rw [List.length_append, List.length_cons] at hn hl
      have hclose : Closes Precedence.lowest.rank u.input.peek.kind := by
        rw [hpeek, hcomma]
        decide
      rw [itemsFrom, bind_of_ok (h.lowest (by omega) he hs hu hclose),
        itemsFrom_round (hu.reaches.ends hs.ends) (hpeek ▸ hcomma),
        ih _ (by omega) (by omega) hi hne' (hs.of_reaches hu.reaches).advance.advance hrest _ rfl]
      simp

theorem expressionList_complete {closer : Kind} {r : Token} {ns : List Node}
    (hl : ts.length < n) (hi : Items .ranked ts ns) (hr : r.kind = closer)
    (hc : closer = .rparen ∨ closer = .rbracket) (hs : Legible s)
    (ht : Takes s.advance (ts ++ [r]) t) : expressionList rule closer s = .ok ns t := by
  by_cases hne : ns = []
  · subst hne
    cases hi
    obtain rfl := ht.eq_of_single
    have hp : s.input.peek.kind = closer := by rw [← advance_cur, ht.cur, hr]
    exact expressionList_of_closer hp
  · obtain ⟨u, hu, hp, rfl⟩ := ht.init (hi.ne_nil hne)
    have hclose : Closes Precedence.lowest.rank u.input.peek.kind := by
      rw [hp, hr]
      rcases hc with rfl | rfl <;> decide
    have hcomma : u.input.peek.kind ≠ .comma := by
      rw [hp, hr]
      rcases hc with rfl | rfl <;> decide
    have hall := itemsFrom_complete h hl hi hne hs.advance hu hclose hcomma #[]
    obtain ⟨m, v, hm, hloop⟩ := bind_eq_ok_iff.mp hall
    have hnot : s.input.peek.kind ≠ closer := by
      obtain ⟨a, as, rfl, ha⟩ := hi.head hne
      rw [← advance_cur, hu.cur]
      rintro rfl
      rcases hc with hc | hc <;> rw [hc] at ha <;> exact absurd ha (by decide)
    rw [expressionList_of_other hnot, bind_of_ok hm]
    apply (bind_of_ok hloop).trans
    rw [expect_bind (peekIs_iff.mpr (hp ▸ hr)), Array.empty_append]
    rfl

end

end

/-! ## Statements -/

/-- The state in which a statement is left: on the semicolon that may follow. -/
def settle (t : ParserState) : ParserState := if t.peekIs .semicolon then t.advance else t

/-- A token of kind `a` is not part of the statement `m` that ends before it. -/
def Concludes (m : Node) (a : Kind) : Prop :=
  Closes Precedence.lowest.rank a ∧
    ∀ w, m = .returnStatement w none → a = .semicolon ∨ a = .rbrace ∨ a = .eof

section
variable {s t : ParserState} {ts : List Token} {m : Node}

theorem skipOptional_settle (t : ParserState) : skipOptional .semicolon t = .ok () (settle t) := by
  unfold settle
  cases hp : t.peekIs .semicolon with
  | true => exact skipOptional_of_peekIs hp
  | false => exact skipOptional_of_not_peekIs hp

theorem StartsExpr.ne {a b : Kind} (h : StartsExpr a) (hb : ¬ StartsExpr b) : a ≠ b := by
  rintro rfl
  exact hb h

theorem Separated.concludes {b : Binding} {ns : List Node} (h : Separated m ts)
    (hts : Statements b ts ns) (ht : Passes s ts t)
    (hend : t.input.cur.kind = .rbrace ∨ t.input.cur.kind = .eof) :
    Concludes m s.input.cur.kind := by
  rcases hts.head with rfl | ⟨a, as, rfl, ha⟩
  · obtain rfl := ht.eq
    refine ⟨?_, fun _ _ => .inr hend⟩
    rcases hend with hk | hk <;> rw [hk] <;> decide
  · rw [ht.cur rfl]
    rcases ha with hsemi | hstart
    · exact ⟨by rw [hsemi]; decide, fun _ _ => .inl hsemi⟩
    · have hne : a.kind ≠ .semicolon := by
        intro hk
        rw [hk] at hstart
        exact absurd hstart (by decide)
      obtain ⟨hcont, hbare⟩ := h a rfl hne
      refine ⟨?_, fun w hw => absurd hw (hbare w)⟩
      revert hstart hcont
      cases a.kind <;> decide

section
variable {n : Nat} (h : Complete n)
include h

theorem statement_complete (hl : ts.length < n) (hst : Statement .ranked ts m) (hs : Legible s)
    (ht : Takes s ts t) (hc : Concludes m t.input.peek.kind) :
    statement rule s = .ok m (settle t) := by
  cases hst with
  | letStatement hw hx ha he =>
    rw [List.length_cons, List.length_cons, List.length_cons] at hl
    obtain ⟨hcw, ht⟩ := ht.uncons (List.cons_ne_nil _ _)
    obtain ⟨hcx, ht⟩ := ht.uncons (List.cons_ne_nil _ _)
    obtain ⟨hca, ht⟩ := ht.uncons he.ne_nil
    rw [advance_cur] at hcx hca
    have hs3 := hs.advance.advance.advance
    rw [statement_of_let (hcw ▸ hw), letStatement, cur_bind,
      expect_bind (peekIs_iff.mpr (hcx ▸ hx)), cur_bind, expect_bind (peekIs_iff.mpr (hca ▸ ha)),
      next_bind, bind_of_ok (h.lowest (by omega) he hs3 ht hc.1),
      bind_of_ok (skipOptional_settle t), advance_cur, hcw, hcx]
    rfl
  | returnValue hw he =>
    rw [List.length_cons] at hl
    obtain ⟨hcw, ht⟩ := ht.uncons he.ne_nil
    obtain ⟨a, as, rfl, hstart⟩ := he.head
    have hp : s.input.peek = a := by rw [← advance_cur, ht.cur]
    rw [statement_of_return (hcw ▸ hw), returnStatement_of_other (hp ▸ hstart.ne (by decide))
      (hp ▸ hstart.ne (by decide)) (hp ▸ hstart.ne (by decide)),
      bind_of_ok (h.lowest (by omega) he hs.advance ht hc.1), bind_of_ok (skipOptional_settle t),
      hcw]
    rfl
  | returnBare hw =>
    obtain rfl := ht.eq_of_single
    rw [statement_of_return (ht.cur ▸ hw), ← ht.cur, settle]
    by_cases hsemi : t.input.peek.kind = .semicolon
    · rw [returnStatement_of_semicolon hsemi, if_pos (peekIs_iff.mpr hsemi)]
    · have hbare := (hc.2 _ rfl).resolve_left hsemi
      rw [returnStatement_of_bare hbare, if_neg (by simpa [peekIs] using hsemi)]
  | expression he =>
    obtain ⟨a, as, heq, hstart⟩ := he.head
    cases heq
    have hcur := ht.cur
    rw [statement_of_other (hcur ▸ hstart.ne (by decide)) (hcur ▸ hstart.ne (by decide)),
      expressionStatement, cur_bind, bind_of_ok (h.lowest hl he hs ht hc.1),
      bind_of_ok (skipOptional_settle t), hcur]
    rfl

/-- Statements in a row, read by whatever reads on behind a statement and skips semicolons:
`reads ns s` says that it comes to its end from `s` with `ns` read before. -/
theorem statements_complete (reads : Array Node → ParserState → Prop)
    (semicolon : ∀ ns s, Legible s → s.input.cur.kind = .semicolon →
      (reads ns s ↔ reads ns s.advance))
    (round : ∀ ns s m t, Legible s → StartsStatement s.input.cur.kind →
      statement rule s = .ok m t → reads (ns.push m) t.advance → reads ns s)
    {ns : List Node} (hst : Statements .ranked ts ns) (hl : ts.length < n) (hs : Legible s)
    (ht : Passes s ts t) (hend : t.input.cur.kind = .rbrace ∨ t.input.cur.kind = .eof)
    (ms : Array Node) (hr : reads (ms ++ ns.toArray) t) : reads ms s := by
  induction hn : ts.length using Nat.strongRecOn generalizing ts ns s ms with
  | _ l ih =>
    cases hst with
    | nil =>
      obtain rfl := ht.eq
      simpa using hr
    | semicolon hk hst =>
      rw [List.length_cons] at hn hl
      obtain ⟨hcur, ht⟩ := ht.uncons
      apply (semicolon ms s hs (hcur ▸ hk)).mpr
      exact ih _ (by omega) hst (by omega) hs.advance ht ms hr rfl
    | cons hm hsep hst =>
      rw [List.length_append] at hn hl
      obtain ⟨a, as, heq, hstart⟩ := hm.head
      have hpos : 0 < as.length + 1 := Nat.succ_pos _
      rw [← List.length_cons (a := a), ← heq] at hpos
      obtain ⟨u, hu, hrest⟩ := ht.split (heq ▸ List.cons_ne_nil a as)
      have hc := hsep.concludes hst hrest hend
      rw [advance_cur] at hc
      have hx := statement_complete h (by omega) hm hs hu hc
      apply round ms s _ _ hs (by rw [hu.passes.cur heq]; exact hstart) hx
      have hnext := ih _ (by omega) hst (by omega) (hs.of_reaches hu.passes.reaches) hrest
        (ms.push _) (by simpa using hr) rfl
      unfold settle
      split
      · next hp =>
        have hk : u.advance.input.cur.kind = .semicolon := by
          rw [advance_cur]
          exact peekIs_iff.mp hp
        exact (semicolon _ _ (hs.of_reaches hu.passes.reaches) hk).mp hnext
      · exact hnext

theorem block_complete (hl : ts.length ≤ n) (hb : Block .ranked ts m) (hs : Legible s)
    (ht : Takes s ts t) : block rule s = .ok m t := by
  cases hb with
  | @intro l r ts ns hk hst hr =>
    rw [List.length_append, List.length_cons] at hl
    obtain ⟨hp, hcr⟩ := ht.snoc
    obtain ⟨hcl, hp⟩ := hp.uncons
    have hloop : loop (fun s => !s.curIs .rbrace) (blockRound rule) #[] s.advance =
        .ok ns.toArray t := by
      refine statements_complete h (fun ms s =>
        loop (fun s => !s.curIs .rbrace) (blockRound rule) ms s = .ok ns.toArray t)
        (fun ms s hs hsemi => ?_) (fun ms s m u hs hstart hx hread => ?_) hst (by omega)
        hs.advance hp (.inl (hcr ▸ hr)) #[] ?_
      · rw [loop_of_again blockRound_shrinks_rule hs.ends (by simp [curIs, hsemi]),
          bind_of_ok (blockRound_of_semicolon hsemi ms)]
      · have hne (k : Kind) (hk : ¬ StartsStatement k) : s.input.cur.kind ≠ k := by
          rintro rfl
          exact hk hstart
        have hround : blockRound rule ms s = .ok (ms.push m) u.advance := by
          rw [blockRound_of_other (hne _ (by decide)) (hne _ (by decide)), bind_of_ok hx]
          rfl
        rw [loop_of_again blockRound_shrinks_rule hs.ends
          (by simpa [curIs] using hne .rbrace (by decide)), bind_of_ok hround]
        exact hread
      · rw [Array.empty_append]
        exact loop_of_not_again (by simp [curIs, hcr, hr])
    rw [block, cur_bind, next_bind, bind_of_ok hloop, hcl]
    rfl

theorem branch_complete (hl : ts.length ≤ n) (hb : Block .ranked ts m) (hs : Legible s)
    (ht : Takes s.advance ts t) : branch rule s = .ok m t := by
  obtain ⟨a, as, rfl, hk⟩ := hb.head
  have hp : s.input.peek = a := by rw [← advance_cur, ht.cur]
  rw [branch, expect_bind (peekIs_iff.mpr (hp ▸ hk))]
  exact block_complete h hl hb hs.advance ht

/-! ## Expressions -/

omit h in
theorem IsInfix.ne {a b : Kind} (h : IsInfix a) (hb : ¬ IsInfix b) : a ≠ b := by
  rintro rfl
  exact hb h

omit h in
theorem rule_of_operand (hs : Legible s) (hx : operand rule s = .ok m t) (p : Precedence) :
    rule p s = loop (binds p) (continuation rule) m t :=
  (rule_eq hs.ends p).trans (bind_of_ok hx)

omit h in
theorem loop_of_continuation {p : Precedence} {l : Node} (hs : Legible s)
    (hb : p.rank < (Precedence.ofKind s.input.peek.kind).rank)
    (hx : continuation rule l s = .ok m t) :
    loop (binds p) (continuation rule) l s = loop (binds p) (continuation rule) m t := by
  rw [loop_of_again (continuation_shrinks_rule p) hs.ends (decide_eq_true hb), bind_of_ok hx]

theorem group_complete {l r : Token} (hl : ts.length < n) (hlk : l.kind = .lparen)
    (he : Expr .ranked Precedence.lowest.rank ts m) (hr : r.kind = .rparen) (hs : Legible s)
    (ht : Takes s (l :: ts ++ [r]) t) : operand rule s = .ok m t := by
  obtain ⟨hcl, ht⟩ := ht.uncons (List.append_ne_nil_of_left_ne_nil he.ne_nil _)
  obtain ⟨u, hu, hp, rfl⟩ := ht.init he.ne_nil
  have hclose : Closes Precedence.lowest.rank u.input.peek.kind := by
    rw [hp, hr]
    decide
  rw [operand_of_lparen (hcl ▸ hlk), groupedExpression, next_bind,
    bind_of_ok (h.lowest hl he hs.advance hu hclose), expect_bind (peekIs_iff.mpr (hp ▸ hr))]
  rfl

theorem conditional_complete {w l r : Token} {cs bs : List Token} {c b : Node}
    (hl : cs.length + bs.length < n) (hw : w.kind = .ifWord) (hlk : l.kind = .lparen)
    (hc : Expr .ranked Precedence.lowest.rank cs c) (hr : r.kind = .rparen)
    (hb : Block .ranked bs b) (hs : Legible s) (ht : Takes s (w :: l :: cs ++ r :: bs) t) :
    operand rule s = (if t.input.peek.kind = .elseWord then next >>= fun _ =>
      branch rule >>= fun d => pure (.conditional w c b (some d))
      else pure (.conditional w c b none) : Parser Node) t := by
  obtain ⟨a, as, heq, -⟩ := hb.head
  obtain ⟨hcw, ht⟩ := ht.uncons (List.cons_ne_nil _ _)
  obtain ⟨hcl, ht⟩ := ht.uncons (List.append_ne_nil_of_left_ne_nil hc.ne_nil _)
  obtain ⟨u, hu, hp, ht⟩ := ht.peek hc.ne_nil
  obtain ⟨-, ht⟩ := ht.uncons (heq ▸ List.cons_ne_nil a as)
  rw [advance_cur] at hcl
  have hclose : Closes Precedence.lowest.rank u.input.peek.kind := by
    rw [hp, hr]
    decide
  have hs2 := hs.advance.advance
  have hsu := (hs2.of_reaches hu.reaches).advance
  rw [operand_of_if (hcw ▸ hw), ifExpression, cur_bind, expect_bind (peekIs_iff.mpr (hcl ▸ hlk)),
    next_bind, bind_of_ok (h.lowest (by omega) hc hs2 hu hclose),
    expect_bind (peekIs_iff.mpr (hp ▸ hr)), bind_of_ok (branch_complete h (by omega) hb hsu ht),
    peek_bind, hcw]

theorem function_complete {w l r : Token} {ps bs : List Token} {is : List Ident} {b : Node}
    (hl : bs.length ≤ n) (hw : w.kind = .fnWord) (hlk : l.kind = .lparen) (hn : Names ps is)
    (hr : r.kind = .rparen) (hb : Block .ranked bs b) (hs : Legible s)
    (ht : Takes s (w :: l :: ps ++ r :: bs) t) :
    operand rule s = .ok (.function w is b) t := by
  obtain ⟨a, as, heq, -⟩ := hb.head
  obtain ⟨hcw, ht⟩ := ht.uncons (List.cons_ne_nil _ _)
  obtain ⟨hcl, ht⟩ := ht.uncons (List.append_ne_nil_of_right_ne_nil _ (List.cons_ne_nil _ _))
  rw [advance_cur] at hcl
  have happ : ps ++ r :: bs = (ps ++ [r]) ++ bs := by rw [List.append_assoc]; rfl
  change Takes s.advance.advance (ps ++ r :: bs) t at ht
  rw [happ] at ht
  obtain ⟨u, hu, ht⟩ := ht.split (List.append_ne_nil_of_right_ne_nil _ (List.cons_ne_nil _ _))
    (heq ▸ List.cons_ne_nil a as)
  have hsu := hs.advance.advance.of_reaches hu.reaches
  rw [operand_of_fn (hcw ▸ hw), functionLiteral, cur_bind, expect_bind (peekIs_iff.mpr (hcl ▸ hlk)),
    bind_of_ok (parameters_complete hn hr hs.advance.ends hu),
    bind_of_ok (branch_complete h hl hb hsu ht), hcw]
  rfl

theorem array_complete {l r : Token} {ns : List Node} (hl : ts.length < n)
    (hlk : l.kind = .lbracket) (hi : Items .ranked ts ns) (hr : r.kind = .rbracket)
    (hs : Legible s) (ht : Takes s (l :: ts ++ [r]) t) :
    operand rule s = .ok (.array l ns) t := by
  obtain ⟨hcl, ht⟩ := ht.uncons (List.append_ne_nil_of_right_ne_nil _ (List.cons_ne_nil _ _))
  have hx := expressionList_complete h hl hi hr (.inr rfl) hs ht
  rw [operand_of_lbracket (hcl ▸ hlk), arrayLiteral, cur_bind, bind_of_ok hx, hcl]
  rfl

theorem prefix_complete {k : Nat} {o : Token} (hl : ts.length < n) (ho : IsPrefix o.kind)
    (hadm : k ≤ Precedence.unary.rank) (he : Expr .ranked Precedence.unary.rank ts m)
    (hs : Legible s) (ht : Takes s (o :: ts) t) (hk : Closes k t.input.peek.kind) :
    operand rule s = .ok (.prefixOp o o.literal m) t := by
  obtain ⟨hcur, ht⟩ := ht.uncons he.ne_nil
  have hstop : binds .unary t = false := decide_eq_false (Nat.not_lt.mpr (Nat.le_trans hk.1 hadm))
  have hread := h.read hl he hs.advance ht .unary (hk.mono hadm) hstop
  rw [operand_of_prefixOp (hcur ▸ ho), prefixExpression, cur_bind, next_bind, bind_of_ok hread,
    hcur]
  rfl

theorem infix_complete {k : Nat} {o : Token} (hl : ts.length < n) (ho : IsInfix o.kind)
    (hadm : k ≤ (Precedence.ofKind o.kind).rank)
    (he : Expr .ranked ((Precedence.ofKind o.kind).rank + 1) ts m) (hs : Legible s)
    (hpeek : s.input.peek = o) (ht : Takes s.advance (o :: ts) t)
    (hk : Closes k t.input.peek.kind) (left : Node) :
    continuation rule left s = .ok (.infixOp o o.literal left m) t := by
  obtain ⟨-, hrest⟩ := ht.uncons he.ne_nil
  subst hpeek
  have hstop : binds (.ofKind s.input.peek.kind) t = false :=
    decide_eq_false (Nat.not_lt.mpr (Nat.le_trans hk.1 hadm))
  have hread := h.read hl he hs.advance.advance hrest (.operator ho)
    (hk.mono (Nat.le_succ_of_le hadm)) hstop
  rw [continuation_of_other (ho.ne (by decide)) (ho.ne (by decide)), infixExpression, cur_bind,
    next_bind, advance_cur, bind_of_ok hread]
  rfl

theorem call_complete {l r : Token} {ns : List Node} (hl : ts.length < n)
    (hlk : l.kind = .lparen) (hi : Items .ranked ts ns) (hr : r.kind = .rparen) (hs : Legible s)
    (hpeek : s.input.peek = l) (ht : Takes s.advance (l :: (ts ++ [r])) t) (callee : Node) :
    continuation rule callee s = .ok (.call l callee ns) t := by
  obtain ⟨-, hrest⟩ := ht.uncons (List.append_ne_nil_of_right_ne_nil _ (List.cons_ne_nil _ _))
  subst hpeek
  rw [continuation_of_lparen hlk, callExpression, cur_bind, advance_cur,
    bind_of_ok (expressionList_complete h hl hi hr (.inl rfl) hs.advance hrest)]
  rfl

theorem index_complete {l r : Token} (hl : ts.length < n) (hlk : l.kind = .lbracket)
    (he : Expr .ranked Precedence.lowest.rank ts m) (hr : r.kind = .rbracket) (hs : Legible s)
    (hpeek : s.input.peek = l) (ht : Takes s.advance (l :: (ts ++ [r])) t) (collection : Node) :
    continuation rule collection s = .ok (.index l collection m) t := by
  obtain ⟨-, hrest⟩ := ht.uncons (List.append_ne_nil_of_left_ne_nil he.ne_nil _)
  obtain ⟨u, hu, hpr, rfl⟩ := hrest.init he.ne_nil
  subst hpeek
  have hclose : Closes Precedence.lowest.rank u.input.peek.kind := by
    rw [hpr, hr]
    decide
  rw [continuation_of_lbracket hlk, indexExpression, cur_bind, next_bind, advance_cur,
    bind_of_ok (h.lowest hl he hs.advance.advance hu hclose),
    expect_bind (peekIs_iff.mpr (hpr ▸ hr))]
  rfl

theorem complete_succ : Complete (n + 1) := by
  intro p k ts m s t hl he hs ht hp hk
  cases he with
  | ident hx =>
    obtain rfl := ht.eq_of_single
    obtain rfl := ht.cur
    exact rule_of_operand hs (operand_of_ident hx) p
  | integer hx hmax =>
    obtain rfl := ht.eq_of_single
    obtain rfl := ht.cur
    have hread := hs.readable _ (ht.subset (List.mem_singleton_self _)) hx
    exact rule_of_operand hs ((operand_of_int hx).trans (integerLiteral_of_le hread hmax)) p
  | string hx =>
    obtain rfl := ht.eq_of_single
    obtain rfl := ht.cur
    exact rule_of_operand hs (operand_of_string hx) p
  | trueWord hx =>
    obtain rfl := ht.eq_of_single
    obtain rfl := ht.cur
    exact rule_of_operand hs (operand_of_true hx) p
  | falseWord hx =>
    obtain rfl := ht.eq_of_single
    obtain rfl := ht.cur
    exact rule_of_operand hs (operand_of_false hx) p
  | group hlk he hr =>
    simp only [List.length_append, List.length_cons] at hl
    exact rule_of_operand hs (group_complete h (by omega) hlk he hr hs ht) p
  | array hlk hi hr =>
    simp only [List.length_append, List.length_cons] at hl
    exact rule_of_operand hs (array_complete h (by omega) hlk hi hr hs ht) p
  | prefixOp hx hadm he =>
    rw [List.length_cons] at hl
    exact rule_of_operand hs (prefix_complete h (by omega) hx (hadm rfl) he hs ht hk) p
  | infixOp hop hadm hle hre =>
    simp only [List.length_append, List.length_cons] at hl
    obtain ⟨u, hu, hpeek, ht⟩ := ht.peek hle.ne_nil
    have hsu := hs.of_reaches hu.reaches
    have hrank := hadm rfl
    have hclose : Closes (Precedence.ofKind u.input.peek.kind).rank u.input.peek.kind :=
      ⟨Nat.le_refl _, (hpeek ▸ hop).ne (by decide)⟩
    rw [h p _ _ _ s u (by omega) hle hs hu (hp.mono hrank) (hpeek ▸ hclose)]
    apply loop_of_continuation hsu (hpeek ▸ hp.lt_rank _ hop hrank)
    exact infix_complete h (by omega) hop hrank hre hsu hpeek ht hk _
  | conditional hw hlk hc hr hb =>
    simp only [List.length_append, List.length_cons] at hl
    refine rule_of_operand hs ?_ p
    rw [conditional_complete h (by omega) hw hlk hc hr hb hs ht, if_neg hk.2]
    rfl
  | alternative hw hlk hc hr hb he hd =>
    simp only [List.length_append, List.length_cons] at hl
    obtain ⟨a, as, heq, -⟩ := hd.head
    obtain ⟨v, hv, hpeek, ht⟩ := ht.peek (List.cons_ne_nil _ _)
    obtain ⟨-, ht⟩ := ht.uncons (heq ▸ List.cons_ne_nil a as)
    have hsv := hs.of_reaches hv.reaches
    have hx := branch_complete h (by omega) hd hsv.advance ht
    refine rule_of_operand hs ?_ p
    rw [conditional_complete h (by omega) hw hlk hc hr hb hs hv, if_pos (hpeek ▸ he), next_bind,
      bind_of_ok hx]
    rfl
  | function hw hlk hn hr hb =>
    simp only [List.length_append, List.length_cons] at hl
    exact rule_of_operand hs (function_complete h (by omega) hw hlk hn hr hb hs ht) p
  | @call _ l r fs ts f ns hf hlk hi hr =>
    simp only [List.length_append, List.length_cons] at hl
    have ht : Takes s (fs ++ l :: (ts ++ [r])) t := ht
    obtain ⟨u, hu, hpeek, ht⟩ := ht.peek hf.ne_nil
    have hsu := hs.of_reaches hu.reaches
    have hkind : u.input.peek.kind = .lparen := hpeek ▸ hlk
    rw [h p _ _ _ s u (by omega) hf hs hu (.call hp.lt_call) (by rw [hkind]; decide)]
    apply loop_of_continuation hsu (hkind ▸ hp.lt_call)
    exact call_complete h (by omega) hlk hi hr hsu hpeek ht f
  | @index _ l r cs ts c i hc hlk he hr =>
    simp only [List.length_append, List.length_cons] at hl
    have ht : Takes s (cs ++ l :: (ts ++ [r])) t := ht
    obtain ⟨u, hu, hpeek, ht⟩ := ht.peek hc.ne_nil
    have hsu := hs.of_reaches hu.reaches
    have hkind : u.input.peek.kind = .lbracket := hpeek ▸ hlk
    rw [h p _ _ _ s u (by omega) hc hs hu (.call hp.lt_call) (by rw [hkind]; decide)]
    apply loop_of_continuation hsu (hkind ▸ hp.lt_call)
    exact index_complete h (by omega) hlk he hr hsu hpeek ht c

end

end

theorem complete (n : Nat) : Complete n := by
  induction n with
  | zero => exact fun _ _ _ _ _ _ hl => absurd hl (Nat.not_lt_zero _)
  | succ n ih => exact complete_succ ih

theorem program_complete {s t : ParserState} {ts : List Token} {ns : List Node}
    (hst : Statements .ranked ts ns) (hs : Legible s) (ht : Passes s ts t)
    (hend : t.input.cur.kind = .eof) (ms : Array Node) :
    programFrom ms s = .ok (ms ++ ns.toArray) t := by
  refine statements_complete (complete _) (fun ks s =>
    programFrom ks s = .ok (ms ++ ns.toArray) t) (fun ks s hs hsemi => ?_)
    (fun ks s m u hs hstart hx hread => ?_) hst (Nat.lt_succ_self _) hs ht (.inr hend) ms
    (programFrom_of_eof hend)
  · rw [programFrom_of_semicolon hs.ends hsemi]
  · have hne (k : Kind) (hk : ¬ StartsStatement k) : s.input.cur.kind ≠ k := by
      rintro rfl
      exact hk hstart
    rw [programFrom_of_ok hs.ends (hne _ (by decide)) (hne _ (by decide)) hx]
    exact hread

end Simian.Grammar
