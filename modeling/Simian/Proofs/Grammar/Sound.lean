import Simian.Proofs.Grammar
import Simian.Proofs.Parser.Program
import Simian.Proofs.Parser.Takes

/-!
# What rules read

A rule that ends well has taken tokens that the grammar derives, with the tree that it gives. The
rules are taken one by one, each on the premise `Sound n` that the rule for expressions is right
wherever fewer than `n` tokens are left; since a rule asks for expressions strictly ahead only,
the premise holds for every `n`.

An expression read with operators above `p` has the least rank `least p`, and ends where the next
operator binds no tighter than `p`.
-/

namespace Simian.Grammar

open Text Simian.Parser ParserState
set_option autoImplicit false

/-- What can be read of a numeral is its value. -/
def Faithful (t : Token) : Prop :=
  t.kind = .int → ∀ n, readInteger t.literal.toList = .ok n → n = numeralValue t

theorem faithful_of_digits {t : Token} (hne : t.literal.toList ≠ [])
    (hd : ∀ c ∈ t.literal.toList, isDigit c = true) : Faithful t := by
  intro _ n hn
  by_cases hl : t.literal.toList.length ≤ digitLimit
  · rw [readInteger_of_digits hne hd hl] at hn
    cases hn
    rfl
  · rw [readInteger_of_tooLong hd (Nat.lt_of_not_le hl)] at hn
    cases hn

/-- The input ends, and its numerals are read as what they are. -/
structure Proper (s : ParserState) : Prop where
  ends : s.Ends
  faithful : ∀ t ∈ s.input.tokens, Faithful t

section
variable {s t : ParserState}

theorem Proper.of_reaches (h : Proper s) (hst : Reaches s t) : Proper t := by
  refine ⟨hst.ends h.ends, fun a ha => h.faithful a ?_⟩
  obtain ⟨n, rfl⟩ := hst
  rw [iterate_advance_tokens] at ha
  exact List.mem_of_mem_drop ha

theorem Proper.advance (h : Proper s) : Proper s.advance := h.of_reaches (.step s)

end

theorem rank_le_call (p : Precedence) : p.rank ≤ Precedence.call.rank := by cases p <;> decide

/-- The least rank of what is read with operators above `p`. -/
def least (p : Precedence) : Nat := min (p.rank + 1) Precedence.unary.rank

theorem least_le_unary (p : Precedence) : least p ≤ Precedence.unary.rank := Nat.min_le_right _ _

theorem lowest_le_least (p : Precedence) : Precedence.lowest.rank ≤ least p := by
  cases p <;> decide

theorem least_le_of_binds {p q : Precedence} (h : p.rank < q.rank) : least p ≤ q.rank :=
  Nat.le_trans (Nat.min_le_left _ _) h

theorem least_ofKind {k : Kind} (h : IsInfix k) :
    least (.ofKind k) = (Precedence.ofKind k).rank + 1 := by
  revert h
  cases k <;> decide

theorem isInfix_of_binds {p : Precedence} {k : Kind} (h : p.rank < (Precedence.ofKind k).rank)
    (hp : k ≠ .lparen) (hb : k ≠ .lbracket) : IsInfix k := by
  have h1 : 1 < (Precedence.ofKind k).rank :=
    Nat.lt_of_le_of_lt (by cases p <;> decide : 1 ≤ p.rank) h
  revert h1 hp hb
  cases k <;> decide

/-- The rule for expressions is right wherever fewer than `n` tokens are left. -/
def Sound (n : Nat) : Prop :=
  ∀ p s m t, Proper s → s.left < n → rule p s = .ok m t →
    ∃ ts, Takes s ts t ∧ Expr .ranked (least p) ts m ∧ binds p t = false

/-! ## Lists -/

section
variable {s t : ParserState}

theorem parameter_eq_ok {ps qs : Array Ident} (h : parameter ps s = .ok qs t) :
    s.input.peek.kind = .ident ∧ t = s.advance ∧
      qs = ps.push ⟨s.input.peek, s.input.peek.literal⟩ := by
  simp only [parameter, bind_eq_ok_iff, expect_eq_ok_iff, cur_bind, pure_eq_ok_iff] at h
  obtain ⟨_, _, ⟨hk, rfl⟩, rfl, rfl⟩ := h
  exact ⟨hk, rfl, by rw [advance_cur]⟩

theorem parameterLoop_sound {ps qs : Array Ident} (hs : Proper s)
    (h : loop (peekIs .comma) parameterRound ps s = .ok qs t) :
    ∃ us is, Passes s.advance us t.advance ∧ qs.toList = ps.toList ++ is ∧
      ∀ x : Token, x.kind = .ident → Names (x :: us) (⟨x, x.literal⟩ :: is) := by
  refine loop_induction parameterRound_shrinks (motive := fun ps s => Proper s →
    ∃ us is, Passes s.advance us t.advance ∧ qs.toList = ps.toList ++ is ∧
      ∀ x : Token, x.kind = .ident → Names (x :: us) (⟨x, x.literal⟩ :: is))
    (fun _ _ _ => ?_) (fun ps s ps' s' _ hc hx _ _ ih hs => ?_) hs.ends h hs
  · exact ⟨[], [], .nil _, (List.append_nil _).symm, fun x hx => .one hx⟩
  · have hck := peekIs_iff.mp hc
    rw [parameterRound, next_bind] at hx
    obtain ⟨hk, rfl, rfl⟩ := parameter_eq_ok hx
    obtain ⟨us, is, hus, hqs, hn⟩ := ih hs.advance.advance
    have hc := Takes.of_peek hs.ends hck (by decide)
    have hi := Takes.of_peek hs.advance.ends hk (by decide)
    refine ⟨_, _, (hc.append hi).passes.trans hus, ?_, fun x hx => .cons hx hck (hn _ hk) ?_⟩
    · rw [hqs, Array.toList_push, List.append_assoc]
      rfl
    · exact List.cons_ne_nil _ _

theorem parameters_sound {is : List Ident} (hs : Proper s) (h : parameters s = .ok is t) :
    ∃ ts r, Names ts is ∧ r.kind = .rparen ∧ Takes s.advance (ts ++ [r]) t := by
  by_cases hk : s.input.peek.kind = .rparen
  · rw [parameters_of_rparen hk] at h
    cases h
    exact ⟨[], _, .nil, hk, .of_peek hs.ends hk (by decide)⟩
  · rw [parameters_of_other hk] at h
    simp only [bind_eq_ok_iff, expect_eq_ok_iff, pure_eq_ok_iff] at h
    obtain ⟨first, u, hf, names, v, hl, _, _, ⟨hr, rfl⟩, rfl, rfl⟩ := h
    obtain ⟨hi, rfl, rfl⟩ := parameter_eq_ok hf
    obtain ⟨us, is, hus, hqs, hn⟩ := parameterLoop_sound hs.advance hl
    have hx := Takes.of_peek hs.ends hi (by decide)
    have hv : v.Ends := hus.reaches.ends hs.ends
    refine ⟨_ :: us, _, ?_, hr, hx.append (hus.takes (.of_peek hv hr (by decide)))⟩
    rw [hqs]
    exact hn _ hi

section
variable {n : Nat} (h : Sound n)
include h

theorem listLoop_sound {ns ms : Array Node} (hs : Proper s) (hl : s.left ≤ n)
    (hx : loop (peekIs .comma) (listRound rule) ns s = .ok ms t) :
    ∃ us ks, Passes s.advance us t.advance ∧ ms.toList = ns.toList ++ ks ∧
      ∀ ts m, Expr .ranked Precedence.lowest.rank ts m → Items .ranked (ts ++ us) (m :: ks) := by
  refine loop_induction listRound_shrinks_rule (motive := fun ns s => Proper s → s.left ≤ n →
    ∃ us ks, Passes s.advance us t.advance ∧ ms.toList = ns.toList ++ ks ∧
      ∀ ts m, Expr .ranked Precedence.lowest.rank ts m → Items .ranked (ts ++ us) (m :: ks))
    (fun _ _ _ _ => ?_) (fun ns s ns' s' _ hc hx _ _ ih hs hl => ?_) hs.ends hx hs hl
  · refine ⟨[], [], .nil _, (List.append_nil _).symm, fun ts m hm => ?_⟩
    rw [List.append_nil]
    exact .one hm
  · have hck := peekIs_iff.mp hc
    have hpos := comma_pos hs.ends hc
    simp only [listRound, next_bind, bind_eq_ok_iff, pure_eq_ok_iff] at hx
    obtain ⟨m, u, hm, rfl, rfl⟩ := hx
    have hs2 := hs.advance.advance
    obtain ⟨ts, hts, hem, -⟩ := h _ _ _ _ hs2 (by rw [advance_left, advance_left]; omega) hm
    have hle := hts.reaches.left_le
    obtain ⟨us, ks, hus, hms, hi⟩ := ih (hs2.of_reaches hts.reaches)
      (by rw [advance_left, advance_left] at hle; omega)
    have hc := Takes.of_peek hs.ends hck (by decide)
    refine ⟨_ :: ts ++ us, m :: ks, (hc.append hts).passes.trans hus, ?_, fun ts' m' hm' => ?_⟩
    · rw [hms, Array.toList_push, List.append_assoc]
      rfl
    · exact .cons hm' hck (hi _ _ (hem.mono (lowest_le_least _))) (List.cons_ne_nil _ _)

theorem expressionList_sound {closer : Kind} {ns : List Node} (hs : Proper s) (hl : s.left ≤ n)
    (hpos : 0 < s.left) (hc : closer ≠ .eof) (hx : expressionList rule closer s = .ok ns t) :
    ∃ ts r, Items .ranked ts ns ∧ r.kind = closer ∧ Takes s.advance (ts ++ [r]) t := by
  by_cases hk : s.input.peek.kind = closer
  · rw [expressionList_of_closer hk] at hx
    cases hx
    exact ⟨[], _, .nil, hk, .of_peek hs.ends hk hc⟩
  · rw [expressionList_of_other hk] at hx
    simp only [bind_eq_ok_iff, expect_eq_ok_iff, pure_eq_ok_iff] at hx
    obtain ⟨m, u, hm, ms, v, hloop, _, _, ⟨hr, rfl⟩, rfl, rfl⟩ := hx
    obtain ⟨ts, hts, hem, -⟩ := h _ _ _ _ hs.advance (by rw [advance_left]; omega) hm
    have hle := hts.reaches.left_le
    obtain ⟨us, ks, hus, hms, hi⟩ := listLoop_sound h (hs.advance.of_reaches hts.reaches)
      (by rw [advance_left] at hle; omega) hloop
    have hv : v.Ends := hus.reaches.ends (hts.reaches.ends hs.ends)
    refine ⟨ts ++ us, _, ?_, hr, ?_⟩
    · rw [hms]
      exact hi _ _ (hem.mono (lowest_le_least _))
    · rw [List.append_assoc]
      exact hts.append (hus.takes (.of_peek hv hr hc))

end

end

/-! ## Statements -/

/-- How the reading of the statement `n` over `ts` may end: on a semicolon, or before a token
that is none and that could not be read as the rest of `n`. -/
inductive Ended (s : ParserState) (ts : List Token) (n : Node) (t : ParserState) : Prop where
  | closed {c : Token} : c.kind = .semicolon → Takes s (ts ++ [c]) t → Ended s ts n t
  | opened : Takes s ts t → t.input.peek.kind ∉ [Kind.minus, .lparen, .lbracket] →
      (∀ w, n = .returnStatement w none → t.input.peek.kind = .rbrace ∨ t.input.peek.kind = .eof) →
      Ended s ts n t

section
variable {s t u : ParserState} {ts us : List Token} {n : Node}

theorem Ended.reaches (h : Ended s ts n t) : Reaches s t := by
  cases h with
  | closed _ h => exact h.reaches
  | opened h _ _ => exact h.reaches

theorem Ended.subset (h : Ended s ts n t) : ts ⊆ s.input.tokens := by
  cases h with
  | closed _ h => exact List.Subset.trans (List.subset_append_left _ _) h.subset
  | opened h _ _ => exact h.subset

theorem Ended.statements {ns : List Node} (h : Ended s ts n t) (hn : Statement .ranked ts n)
    (hu : Passes t.advance us u) (hus : Statements .ranked us ns) :
    ∃ vs, Passes s vs u ∧ Statements .ranked vs (n :: ns) := by
  cases h with
  | @closed c hc ht =>
    refine ⟨ts ++ [c] ++ us, ht.passes.trans hu, ?_⟩
    rw [List.append_assoc]
    refine .cons hn (fun a ha hne => ?_) (.semicolon hc hus)
    cases ha
    exact absurd hc hne
  | opened ht hp hr =>
    refine ⟨ts ++ us, ht.passes.trans hu, .cons hn (fun a ha _ => ?_) hus⟩
    obtain ⟨vs, rfl⟩ := List.head?_eq_some_iff.mp ha
    have hcur : t.input.peek = a := (advance_cur t).symm.trans (hu.cur rfl)
    rw [hcur] at hp hr
    refine ⟨hp, fun w hw => ?_⟩
    rcases hus.head with hnil | ⟨b, bs, hab, hb⟩
    · exact absurd hnil (List.cons_ne_nil _ _)
    · obtain ⟨rfl, rfl⟩ := List.cons.inj hab
      rcases hr w hw with hk | hk <;> rw [hk] at hb <;> revert hb <;> decide

theorem Ended.of_value {v : Unit} (hs : s.Ends) (h : Takes s ts t) (hb : binds .lowest t = false)
    (hn : ∀ w, n ≠ .returnStatement w none) (hx : skipOptional .semicolon t = .ok v u) :
    Ended s ts n u := by
  cases hp : t.peekIs .semicolon with
  | true =>
    rw [skipOptional_of_peekIs hp] at hx
    cases hx
    have hk := peekIs_iff.mp hp
    exact .closed hk (h.append (.of_peek (h.reaches.ends hs) hk (by decide)))
  | false =>
    rw [skipOptional_of_not_peekIs hp] at hx
    cases hx
    refine .opened h (fun hm => ?_) (fun w hw => absurd hw (hn w))
    have hlt := of_decide_eq_false hb
    revert hm hlt
    cases t.input.peek.kind <;> decide

end

section
variable {n : Nat} (h : Sound n) {s t : ParserState}
include h

theorem statement_sound {m : Node} (hs : Proper s) (hl : s.left < n)
    (he : s.input.cur.kind ≠ .eof) (hx : statement rule s = .ok m t) :
    ∃ ts, Statement .ranked ts m ∧ Ended s ts m t := by
  have hcur := Takes.single hs.ends he
  by_cases hlet : s.input.cur.kind = .letWord
  · rw [statement_of_let hlet] at hx
    simp only [letStatement, cur_bind, next_bind, bind_eq_ok_iff, expect_eq_ok_iff,
      pure_eq_ok_iff] at hx
    obtain ⟨_, _, ⟨hi, rfl⟩, _, _, ⟨ha, rfl⟩, v, u, hv, _, w, hsemi, rfl, rfl⟩ := hx
    rw [advance_cur]
    have hs3 := hs.advance.advance.advance
    obtain ⟨ts, hts, hev, hb⟩ := h _ _ _ _ hs3 (by simp only [advance_left]; omega) hv
    have hx := Takes.of_peek hs.ends hi (by decide)
    have ha' := Takes.of_peek hs.advance.ends ha (by decide)
    refine ⟨_, .letStatement hlet hi ha (hev.mono (lowest_le_least _)), ?_⟩
    exact .of_value hs.ends (hcur.append (hx.append (ha'.append hts))) hb (by simp) hsemi
  · by_cases hret : s.input.cur.kind = .returnWord
    · rw [statement_of_return hret] at hx
      by_cases hsemi : s.input.peek.kind = .semicolon
      · rw [returnStatement_of_semicolon hsemi] at hx
        cases hx
        have hnext := Takes.of_peek hs.ends hsemi (by decide)
        exact ⟨_, .returnBare hret, .closed hsemi (hcur.append hnext)⟩
      · by_cases hbare : s.input.peek.kind = .rbrace ∨ s.input.peek.kind = .eof
        · rw [returnStatement_of_bare hbare] at hx
          cases hx
          refine ⟨_, .returnBare hret, .opened hcur ?_ fun _ _ => hbare⟩
          rcases hbare with hk | hk <;> rw [hk] <;> decide
        · obtain ⟨hbrace, heof⟩ := not_or.mp hbare
          rw [returnStatement_of_other hsemi hbrace heof] at hx
          simp only [bind_eq_ok_iff, pure_eq_ok_iff] at hx
          obtain ⟨v, u, hv, _, w, hsemi, rfl, rfl⟩ := hx
          obtain ⟨ts, hts, hev, hb⟩ := h _ _ _ _ hs.advance (by rw [advance_left]; omega) hv
          refine ⟨_, .returnValue hret (hev.mono (lowest_le_least _)), ?_⟩
          exact .of_value hs.ends (hcur.append hts) hb (by simp) hsemi
    · rw [statement_of_other hlet hret] at hx
      simp only [expressionStatement, cur_bind, bind_eq_ok_iff, pure_eq_ok_iff] at hx
      obtain ⟨v, u, hv, _, w, hsemi, rfl, rfl⟩ := hx
      obtain ⟨ts, hts, hev, hb⟩ := h _ _ _ _ hs hl hv
      obtain ⟨a, as, rfl⟩ := List.exists_cons_of_ne_nil hts.ne_nil
      rw [hts.cur]
      refine ⟨_, .expression (hev.mono (lowest_le_least _)), ?_⟩
      exact .of_value hs.ends hts hb (by simp) hsemi

theorem blockLoop_sound {ns ms : Array Node} (hs : Proper s) (hl : s.left < n)
    (hx : loop (fun s => !s.curIs .rbrace) (blockRound rule) ns s = .ok ms t) :
    t.input.cur.kind = .rbrace ∧
      ∃ us ks, Passes s us t ∧ ms.toList = ns.toList ++ ks ∧ Statements .ranked us ks := by
  refine loop_induction blockRound_shrinks_rule (motive := fun ns s => Proper s → s.left < n →
    t.input.cur.kind = .rbrace ∧
      ∃ us ks, Passes s us t ∧ ms.toList = ns.toList ++ ks ∧ Statements .ranked us ks)
    (fun _ hr _ _ => ?_) (fun ns s ns' s' _ hr hx _ _ ih hs hl => ?_) hs.ends hx hs hl
  · exact ⟨by simpa [curIs] using hr, [], [], .nil _, (List.append_nil _).symm, .nil⟩
  · by_cases he : s.input.cur.kind = .eof
    · simp [blockRound_of_eof he, fail] at hx
    · by_cases hk : s.input.cur.kind = .semicolon
      · rw [blockRound_of_semicolon hk] at hx
        cases hx
        obtain ⟨ht, us, ks, hus, hms, hst⟩ := ih hs.advance (by rw [advance_left]; omega)
        have hcur := Takes.single hs.ends he
        exact ⟨ht, _, ks, hcur.passes.trans hus, hms, .semicolon hk hst⟩
      · rw [blockRound_of_other he hk] at hx
        simp only [bind_eq_ok_iff, next_apply, pure_eq_ok_iff] at hx
        obtain ⟨m, u, hm, _, _, hnext, rfl, rfl⟩ := hx
        cases hnext
        obtain ⟨ts, hst, hend⟩ := statement_sound h hs hl he hm
        have hu := hend.reaches.trans (.step u)
        obtain ⟨ht, us, ks, hus, hms, hsts⟩ := ih (hs.of_reaches hu)
          (Nat.lt_of_le_of_lt hu.left_le hl)
        obtain ⟨vs, hvs, hall⟩ := hend.statements hst hus hsts
        refine ⟨ht, vs, m :: ks, hvs, ?_, hall⟩
        rw [hms, Array.toList_push, List.append_assoc]
        rfl

theorem block_sound {m : Node} (hs : Proper s) (hl : s.left ≤ n)
    (hk : s.input.cur.kind = .lbrace) (hx : block rule s = .ok m t) :
    ∃ ts, Takes s ts t ∧ Block .ranked ts m := by
  have hpos := left_pos_of_cur hs.ends (by simp [hk])
  simp only [block, cur_bind, next_bind, bind_eq_ok_iff, pure_eq_ok_iff] at hx
  obtain ⟨ms, u, hloop, rfl, rfl⟩ := hx
  obtain ⟨hr, us, ks, hus, hms, hst⟩ :=
    blockLoop_sound h hs.advance (by rw [advance_left]; omega) hloop
  have hu : u.Ends := hus.reaches.ends hs.ends
  have hl := Takes.of_cur hs.ends hk (by decide)
  refine ⟨_, hl.append (hus.takes (.of_cur hu hr (by decide))), ?_⟩
  rw [hms]
  exact .intro hk hst hr

theorem branch_sound {m : Node} (hs : Proper s) (hl : s.left ≤ n) (hx : branch rule s = .ok m t) :
    ∃ ts, Takes s.advance ts t ∧ Block .ranked ts m := by
  simp only [branch, bind_eq_ok_iff, expect_eq_ok_iff] at hx
  obtain ⟨_, _, ⟨hk, rfl⟩, hx⟩ := hx
  exact block_sound h hs.advance (by rw [advance_left]; omega) (by rwa [advance_cur]) hx

/-! ## Expressions -/

theorem grouped_sound {m : Node} (hs : Proper s) (hl : s.left ≤ n)
    (hk : s.input.cur.kind = .lparen) (hx : groupedExpression rule s = .ok m t) :
    ∃ ts, Takes s ts t ∧ ∀ k, Expr .ranked k ts m := by
  have hpos := left_pos_of_cur hs.ends (by simp [hk])
  simp only [groupedExpression, next_bind, bind_eq_ok_iff, expect_eq_ok_iff, pure_eq_ok_iff] at hx
  obtain ⟨m, u, hm, _, _, ⟨hr, rfl⟩, rfl, rfl⟩ := hx
  obtain ⟨ts, hts, hem, -⟩ := h _ _ _ _ hs.advance (by rw [advance_left]; omega) hm
  have hl := Takes.of_cur hs.ends hk (by decide)
  have hr' := Takes.of_peek (hts.reaches.ends hs.ends) hr (by decide)
  exact ⟨_, hl.append (hts.append hr'), fun k => .group hk (hem.mono (lowest_le_least _)) hr⟩

theorem array_sound {m : Node} (hs : Proper s) (hl : s.left ≤ n)
    (hk : s.input.cur.kind = .lbracket) (hx : arrayLiteral rule s = .ok m t) :
    ∃ ts, Takes s ts t ∧ ∀ k, Expr .ranked k ts m := by
  have hpos := left_pos_of_cur hs.ends (by simp [hk])
  simp only [arrayLiteral, cur_bind, bind_eq_ok_iff, pure_eq_ok_iff] at hx
  obtain ⟨ns, u, hns, rfl, rfl⟩ := hx
  obtain ⟨ts, r, hi, hr, hts⟩ := expressionList_sound h hs hl hpos (by decide) hns
  exact ⟨_, (Takes.of_cur hs.ends hk (by decide)).append hts, fun k => .array hk hi hr⟩

theorem conditional_sound {m : Node} (hs : Proper s) (hl : s.left ≤ n)
    (hk : s.input.cur.kind = .ifWord) (hx : ifExpression rule s = .ok m t) :
    ∃ ts, Takes s ts t ∧ ∀ k, Expr .ranked k ts m := by
  have hpos := left_pos_of_cur hs.ends (by simp [hk])
  simp only [ifExpression, cur_bind, peek_bind, next_bind, bind_eq_ok_iff, expect_eq_ok_iff] at hx
  obtain ⟨_, _, ⟨hp, rfl⟩, c, u, hc, _, _, ⟨hr, rfl⟩, b, v, hb, hx⟩ := hx
  obtain ⟨cs, hcs, hec, -⟩ := h _ _ _ _ hs.advance.advance (by simp only [advance_left]; omega) hc
  have hu := hs.advance.advance.of_reaches hcs.reaches
  have hle := hcs.reaches.left_le
  simp only [advance_left] at hle
  obtain ⟨bs, hbs, hbb⟩ := branch_sound h hu.advance (by rw [advance_left]; omega) hb
  have hv := hu.advance.advance.of_reaches hbs.reaches
  have hw := Takes.of_cur hs.ends hk (by decide)
  have hp' := Takes.of_peek hs.ends hp (by decide)
  have hr' := Takes.of_peek hu.ends hr (by decide)
  have hall := hw.append (hp'.append (hcs.append (hr'.append hbs)))
  have hec := hec.mono (lowest_le_least _)
  by_cases he : v.input.peek.kind = .elseWord
  · rw [if_pos he] at hx
    simp only [next_bind, bind_eq_ok_iff, pure_eq_ok_iff] at hx
    obtain ⟨d, w, hd, rfl, rfl⟩ := hx
    have hle' := hbs.reaches.left_le
    simp only [advance_left] at hle'
    obtain ⟨ds, hds, hbd⟩ := branch_sound h hv.advance (by rw [advance_left]; omega) hd
    have he' := Takes.of_peek hv.ends he (by decide)
    have htokens := hall.append (he'.append hds)
    exact ⟨_, htokens, fun k => .alternative hk hp hec hr hbb he hbd⟩
  · rw [if_neg he] at hx
    cases hx
    exact ⟨_, hall, fun k => .conditional hk hp hec hr hbb⟩

theorem function_sound {m : Node} (hs : Proper s) (hl : s.left ≤ n)
    (hk : s.input.cur.kind = .fnWord) (hx : functionLiteral rule s = .ok m t) :
    ∃ ts, Takes s ts t ∧ ∀ k, Expr .ranked k ts m := by
  have hpos := left_pos_of_cur hs.ends (by simp [hk])
  simp only [functionLiteral, cur_bind, bind_eq_ok_iff, expect_eq_ok_iff, pure_eq_ok_iff] at hx
  obtain ⟨_, _, ⟨hp, rfl⟩, is, u, his, b, v, hb, rfl, rfl⟩ := hx
  obtain ⟨ps, r, hps, hr, hts⟩ := parameters_sound hs.advance his
  have hu := hs.advance.advance.of_reaches hts.reaches
  have hle := hts.reaches.left_le
  simp only [advance_left] at hle
  obtain ⟨bs, hbs, hbb⟩ := branch_sound h hu (by omega) hb
  have hw := Takes.of_cur hs.ends hk (by decide)
  have hp' := Takes.of_peek hs.ends hp (by decide)
  have hall := hw.append (hp'.append (hts.append hbs))
  rw [List.append_assoc] at hall
  exact ⟨_, hall, fun k => .function hk hp hps hr hbb⟩

omit h in
theorem integer_sound {m : Node} (hs : Proper s) (hk : s.input.cur.kind = .int)
    (hx : integerLiteral s = .ok m t) : ∃ ts, Takes s ts t ∧ ∀ k, Expr .ranked k ts m := by
  have hcur := Takes.of_cur hs.ends hk (by decide)
  cases hv : readInteger s.input.cur.literal.toList with
  | ok v =>
    by_cases hmax : v ≤ Int64.max
    · rw [integerLiteral_of_le hv hmax] at hx
      cases hx
      obtain rfl := hs.faithful _ (hcur.subset (List.mem_singleton_self _)) hk v hv
      exact ⟨_, hcur, fun k => .integer hk hmax⟩
    · rw [integerLiteral_of_lt hv (Int.not_le.mp hmax)] at hx
      cases hx
  | error fault =>
    rw [integerLiteral_of_error hv] at hx
    cases hx

theorem prefix_sound {m : Node} (hs : Proper s) (hl : s.left ≤ n)
    (hk : IsPrefix s.input.cur.kind) (hx : prefixExpression rule s = .ok m t) :
    ∃ ts, Takes s ts t ∧ Expr .ranked Precedence.unary.rank ts m ∧ binds .unary t = false := by
  have he : s.input.cur.kind ≠ .eof := by rcases hk with hk | hk <;> rw [hk] <;> decide
  have hpos := left_pos_of_cur hs.ends he
  simp only [prefixExpression, cur_bind, next_bind, bind_eq_ok_iff, pure_eq_ok_iff] at hx
  obtain ⟨v, u, hv, rfl, rfl⟩ := hx
  obtain ⟨ts, hts, hev, hb⟩ := h _ _ _ _ hs.advance (by rw [advance_left]; omega) hv
  refine ⟨_, (Takes.single hs.ends he).append hts, ?_, hb⟩
  exact .prefixOp hk (fun _ => Nat.le_refl _) hev

theorem operand_sound {m : Node} (hs : Proper s) (hl : s.left ≤ n)
    (hx : operand rule s = .ok m t) :
    ∃ ts k, Takes s ts t ∧ Precedence.unary.rank ≤ k ∧ Expr .ranked k ts m ∧
      (Precedence.ofKind t.input.peek.kind).rank ≤ k := by
  have atom (hm : ∃ ts, Takes s ts t ∧ ∀ k, Expr .ranked k ts m) :
      ∃ ts k, Takes s ts t ∧ Precedence.unary.rank ≤ k ∧ Expr .ranked k ts m ∧
        (Precedence.ofKind t.input.peek.kind).rank ≤ k := by
    obtain ⟨ts, hts, he⟩ := hm
    exact ⟨ts, _, hts, by decide, he _, rank_le_call _⟩
  by_cases hstart : StartsExpr s.input.cur.kind
  · cases hk : s.input.cur.kind with
    | ident =>
      rw [operand_of_ident hk] at hx
      cases hx
      exact atom ⟨_, .of_cur hs.ends hk (by decide), fun _ => .ident hk⟩
    | int => exact atom (integer_sound hs hk (operand_of_int hk ▸ hx))
    | string =>
      rw [operand_of_string hk] at hx
      cases hx
      exact atom ⟨_, .of_cur hs.ends hk (by decide), fun _ => .string hk⟩
    | trueWord =>
      rw [operand_of_true hk] at hx
      cases hx
      exact atom ⟨_, .of_cur hs.ends hk (by decide), fun _ => .trueWord hk⟩
    | falseWord =>
      rw [operand_of_false hk] at hx
      cases hx
      exact atom ⟨_, .of_cur hs.ends hk (by decide), fun _ => .falseWord hk⟩
    | lparen => exact atom (grouped_sound h hs hl hk (operand_of_lparen hk ▸ hx))
    | lbracket => exact atom (array_sound h hs hl hk (operand_of_lbracket hk ▸ hx))
    | ifWord => exact atom (conditional_sound h hs hl hk (operand_of_if hk ▸ hx))
    | fnWord => exact atom (function_sound h hs hl hk (operand_of_fn hk ▸ hx))
    | bang | minus =>
      have hpre : IsPrefix s.input.cur.kind := by rw [hk]; decide
      rw [operand_of_prefixOp hpre] at hx
      obtain ⟨ts, hts, he, hb⟩ := prefix_sound h hs hl hpre hx
      exact ⟨ts, _, hts, Nat.le_refl _, he, Nat.not_lt.mp (of_decide_eq_false hb)⟩
    | _ => exact absurd hstart (by rw [hk]; decide)
  · obtain ⟨cause, hf⟩ := operand_of_other (e := rule) hstart
    rw [hf] at hx
    cases hx

/-- What continues the expression `m` over `ts`, where the next operator binds tighter than `p`
but no tighter than the operators of `m`. -/
theorem continuation_sound {p : Precedence} {k : Nat} {ts : List Token} {m m' : Node}
    {s₀ : ParserState} (hs : Proper s) (hl : s.left ≤ n) (hts : Takes s₀ ts s)
    (hm : Expr .ranked k ts m) (hk : (Precedence.ofKind s.input.peek.kind).rank ≤ k)
    (hp : binds p s = true) (hx : continuation rule m s = .ok m' t) :
    ∃ us j, Takes s₀ us t ∧ least p ≤ j ∧ Expr .ranked j us m' ∧
      (Precedence.ofKind t.input.peek.kind).rank ≤ j := by
  have hleft := one_lt_left_of_binds hs.ends hp
  have hlt := of_decide_eq_true hp
  by_cases hparen : s.input.peek.kind = .lparen
  · rw [continuation_of_lparen hparen] at hx
    rw [hparen] at hk
    simp only [callExpression, cur_bind, bind_eq_ok_iff, pure_eq_ok_iff, advance_cur] at hx
    obtain ⟨ns, u, hns, rfl, rfl⟩ := hx
    obtain ⟨us, r, hi, hr, hus⟩ := expressionList_sound h hs.advance
      (by rw [advance_left]; omega) (by rw [advance_left]; omega) (by decide) hns
    have hl := Takes.of_peek hs.ends hparen (by decide)
    refine ⟨_, Precedence.call.rank, hts.append (hl.append hus), ?_, ?_, rank_le_call _⟩
    · exact Nat.le_trans (least_le_unary p) (by decide)
    · exact .call (hm.mono hk) hparen hi hr
  · by_cases hbracket : s.input.peek.kind = .lbracket
    · rw [continuation_of_lbracket hbracket] at hx
      rw [hbracket] at hk
      simp only [indexExpression, cur_bind, next_bind, bind_eq_ok_iff, expect_eq_ok_iff,
        pure_eq_ok_iff, advance_cur] at hx
      obtain ⟨i, u, hi, _, _, ⟨hr, rfl⟩, rfl, rfl⟩ := hx
      obtain ⟨us, hus, hei, -⟩ := h _ _ _ _ hs.advance.advance
        (by simp only [advance_left]; omega) hi
      have hl := Takes.of_peek hs.ends hbracket (by decide)
      have hr' := Takes.of_peek (hus.reaches.ends hs.ends) hr (by decide)
      have hall := hts.append (hl.append (hus.append hr'))
      refine ⟨_, Precedence.call.rank, hall, ?_, ?_, rank_le_call _⟩
      · exact Nat.le_trans (least_le_unary p) (by decide)
      · exact .index (hm.mono hk) hbracket (hei.mono (lowest_le_least _)) hr
    · have hop : IsInfix s.input.peek.kind := isInfix_of_binds hlt hparen hbracket
      rw [continuation_of_other hparen hbracket] at hx
      simp only [infixExpression, cur_bind, next_bind, bind_eq_ok_iff, pure_eq_ok_iff,
        advance_cur] at hx
      obtain ⟨v, u, hv, rfl, rfl⟩ := hx
      obtain ⟨us, hus, hev, hb⟩ := h _ _ _ _ hs.advance.advance
        (by simp only [advance_left]; omega) hv
      have he : s.input.peek.kind ≠ .eof := by
        intro he
        rw [he] at hop
        exact absurd hop (by decide)
      have ho := Takes.of_peek hs.ends rfl he
      rw [least_ofKind hop] at hev
      refine ⟨_, _, hts.append (ho.append hus), least_le_of_binds hlt, ?_,
        Nat.not_lt.mp (of_decide_eq_false hb)⟩
      exact .infixOp hop (fun _ => Nat.le_refl _) (hm.mono hk) hev

theorem sound_succ : Sound (n + 1) := by
  intro p s m t hs hl hx
  rw [rule_eq hs.ends] at hx
  obtain ⟨left, u, hleft, hloop⟩ := bind_eq_ok_iff.mp hx
  obtain ⟨ts, k, hts, hk, hel, hpk⟩ := operand_sound h hs (Nat.le_of_lt_succ hl) hleft
  refine loop_induction (continuation_shrinks_rule p) (motive := fun left u => Proper u →
    ∀ ts k, Takes s ts u → least p ≤ k → Expr .ranked k ts left →
      (Precedence.ofKind u.input.peek.kind).rank ≤ k →
      ∃ ts, Takes s ts t ∧ Expr .ranked (least p) ts m ∧ binds p t = false)
    (fun _ hb _ ts k hts hk hel _ => ⟨ts, hts, hel.mono hk, hb⟩)
    (fun left u left' u' _ hb hx _ _ ih hu ts k hts hk hel hpk => ?_) (hts.reaches.ends hs.ends)
    hloop (hs.of_reaches hts.reaches) ts k hts (Nat.le_trans (least_le_unary p) hk) hel hpk
  have hul := Nat.le_trans hts.reaches.left_le (Nat.le_of_lt_succ hl)
  obtain ⟨us, j, hus, hj, hel', hpj⟩ := continuation_sound h hu hul hts hel hpk hb hx
  exact ih (hs.of_reaches hus.reaches) us j hus hj hel' hpj

end

theorem sound (n : Nat) : Sound n := by
  induction n with
  | zero => exact fun _ _ _ _ _ hl => absurd hl (Nat.not_lt_zero _)
  | succ n ih => exact sound_succ ih

/-! ## Programs -/

section
variable {s t : ParserState} {ss ts : Array Node}

theorem Proper.of_resumed {u v : ParserState} {e : SyntaxError} (hs : Proper s)
    (hu : Reaches s u) (hv : Reaches (u.record e) v) : Proper (resumed v) :=
  ⟨hv.ends (hu.ends hs.ends), fun a ha =>
    hs.faithful a (hu.input_suffix.subset (hv.input_suffix.subset ha))⟩

/-- Whatever a program's errors, every statement that survives is one, made of the program's own
tokens. -/
theorem survivors_sound (hs : Proper s) (h : programFrom ss s = .ok ts t) :
    ∃ ns, ts.toList = ss.toList ++ ns ∧
      ∀ n ∈ ns, ∃ us, us ⊆ s.input.tokens ∧ Statement .ranked us n := by
  refine programFrom_induction (motive := fun ss s => Proper s →
    ∃ ns, ts.toList = ss.toList ++ ns ∧
      ∀ n ∈ ns, ∃ us, us ⊆ s.input.tokens ∧ Statement .ranked us n)
    (fun _ _ => ?_) (fun ss s _ _ ih hs => ?_) (fun ss s n u _ he _ hst ih hs => ?_)
    (fun ss s u e v _ _ _ _ hu _ hv _ ih hs => ?_) hs.ends h hs
  · exact ⟨[], (List.append_nil _).symm, fun _ hn => absurd hn List.not_mem_nil⟩
  · obtain ⟨ns, hns, hall⟩ := ih hs.advance
    refine ⟨ns, hns, fun n hn => ?_⟩
    obtain ⟨us, hus, hn⟩ := hall n hn
    exact ⟨us, List.Subset.trans hus (Reaches.step s).input_suffix.subset, hn⟩
  · obtain ⟨us, hn, hend⟩ := statement_sound (sound _) hs (Nat.lt_succ_self _) he hst
    have hu := hend.reaches.trans (.step u)
    obtain ⟨ns, hns, hall⟩ := ih (hs.of_reaches hu)
    refine ⟨n :: ns, ?_, fun m hm => ?_⟩
    · rw [hns, Array.toList_push, List.append_assoc]
      rfl
    · rcases List.mem_cons.mp hm with rfl | hm
      · exact ⟨us, hend.subset, hn⟩
      · obtain ⟨vs, hvs, hm⟩ := hall m hm
        exact ⟨vs, List.Subset.trans hvs hu.input_suffix.subset, hm⟩
  · obtain ⟨ns, hns, hall⟩ := ih (hs.of_resumed hu hv)
    refine ⟨ns, hns, fun n hn => ?_⟩
    obtain ⟨us, hus, hn⟩ := hall n hn
    have hsub := List.Subset.trans hv.input_suffix.subset hu.input_suffix.subset
    exact ⟨us, List.Subset.trans hus hsub, hn⟩

theorem errors_size_le (hs : s.Ends) (h : programFrom ss s = .ok ts t) :
    s.errors.size ≤ t.errors.size := by
  refine programFrom_induction (motive := fun _ s => s.errors.size ≤ t.errors.size)
    (fun _ => Nat.le_refl _) (fun _ _ _ _ ih => ih) (fun _ s n u hs _ _ hst ih => ?_)
    (fun _ s u e v _ _ _ _ hu _ hv _ ih => ?_) hs h
  · have he := ((statement_runs hs).reaches hst).errors_eq
    rwa [advance_errors, he] at ih
  · have he : (resumed v).errors = u.errors.push e := hv.errors_eq
    rw [he, Array.size_push, hu.errors_eq] at ih
    omega

/-- A program without errors is derived by the grammar, with the statements that survive. -/
theorem program_sound (hs : Proper s) (h : programFrom ss s = .ok ts t)
    (herr : t.errors = s.errors) : t.input.cur.kind = .eof ∧
      ∃ us ns, Passes s us t ∧ ts.toList = ss.toList ++ ns ∧ Statements .ranked us ns := by
  refine programFrom_induction (motive := fun ss s => Proper s → t.errors = s.errors →
    t.input.cur.kind = .eof ∧
      ∃ us ns, Passes s us t ∧ ts.toList = ss.toList ++ ns ∧ Statements .ranked us ns)
    (fun ht _ _ => ?_) (fun ss s _ hk ih hs herr => ?_) (fun ss s n u _ he _ hst ih hs herr => ?_)
    (fun ss s u e v _ _ _ _ hu _ hv hl _ hs herr => ?_) hs.ends h hs herr
  · exact ⟨ht, [], [], .nil _, (List.append_nil _).symm, .nil⟩
  · obtain ⟨ht, us, ns, hus, hns, hst⟩ := ih hs.advance herr
    have hcur := Takes.of_cur hs.ends hk (by decide)
    exact ⟨ht, _, ns, hcur.passes.trans hus, hns, .semicolon hk hst⟩
  · obtain ⟨us, hn, hend⟩ := statement_sound (sound _) hs (Nat.lt_succ_self _) he hst
    have hu := hend.reaches.trans (.step u)
    obtain ⟨ht, vs, ns, hvs, hns, hst⟩ := ih (hs.of_reaches hu) (herr.trans hu.errors_eq.symm)
    obtain ⟨ws, hws, hall⟩ := hend.statements hn hvs hst
    refine ⟨ht, ws, n :: ns, hws, ?_, hall⟩
    rw [hns, Array.toList_push, List.append_assoc]
    rfl
  · have hv' : v.errors = u.errors.push e := hv.errors_eq
    have hle := errors_size_le (hs.of_resumed hu hv).ends hl
    rw [herr, ← hu.errors_eq] at hle
    change v.errors.size ≤ u.errors.size at hle
    rw [hv', Array.size_push] at hle
    omega

end

end Simian.Grammar
