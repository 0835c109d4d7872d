import Simian.Proofs.Grammar.Balance
import Simian.Proofs.Grammar.Complete

/-!
# Reading two inputs in step

A rule looks at the current token and at the next one, and it looks at the next one only where the
current token is no semicolon outside brackets. So a rule does the same on two inputs that differ
only behind such a semicolon, wherever it succeeds or fails.

`InStep R` says that `R` relates states which a rule cannot tell apart: they have one current token
and one depth, and unless the token is a semicolon outside brackets they have one next token and
moving keeps them related. The errors recorded so far may differ. What a rule does in two such
states is matched step by step; only a block asks for the depth, since it steps over semicolons.
-/

namespace Simian.Parser

open ParserState Grammar
set_option autoImplicit false

/-- The current token is no semicolon outside brackets. -/
def Open (s : ParserState) : Prop := s.input.cur.kind ≠ .semicolon ∨ s.depth ≠ 0

/-- The states that `R` relates cannot be told apart. -/
structure InStep (R : ParserState → ParserState → Prop) : Prop where
  left {s s' : ParserState} : R s s' → Legible s
  right {s s' : ParserState} : R s s' → Legible s'
  cur {s s' : ParserState} : R s s' → s.input.cur = s'.input.cur
  depth {s s' : ParserState} : R s s' → s.depth = s'.depth
  peek {s s' : ParserState} : R s s' → Open s → s.input.peek = s'.input.peek
  advance {s s' : ParserState} : R s s' → Open s → R s.advance s'.advance
  record {s s' : ParserState} {e : SyntaxError} : R s s' → R (s.record e) (s'.record e)

/-- Two results that are the same but for the states, which `J` relates in case of success and `R`
in case of failure. -/
inductive Matches {α : Type} (R J : ParserState → ParserState → Prop) :
    EStateM.Result Stop ParserState α → EStateM.Result Stop ParserState α → Prop where
  | ok {a : α} {t t' : ParserState} : J t t' → Matches R J (.ok a t) (.ok a t')
  | abandoned {e : SyntaxError} {t t' : ParserState} : R t t' →
      Matches R J (.error .abandoned (t.record e)) (.error .abandoned (t'.record e))
  | stopped {stop : Stop} {t t' : ParserState} : stop ≠ .abandoned →
      Matches R J (.error stop t) (.error stop t')

def Same {α : Type} (R J : ParserState → ParserState → Prop) (s s' : ParserState) (x : Parser α) :
    Prop := Matches R J (x s) (x s')

namespace Same
variable {α β : Type} {R J K : ParserState → ParserState → Prop} {s s' : ParserState}
  {x : Parser α} {f : α → Parser β}

theorem imp (h : Same R J s s' x) (hJK : ∀ t t', J t t' → K t t') : Same R K s s' x := by
  unfold Same at h ⊢
  generalize x s = r, x s' = r' at h ⊢
  cases h with
  | ok h => exact .ok (hJK _ _ h)
  | abandoned h => exact .abandoned h
  | stopped h => exact .stopped h

theorem bind (h : Same R J s s' x) (hf : ∀ a t t', J t t' → x s = .ok a t → Same R K t t' (f a)) :
    Same R K s s' (x >>= f) := by
  unfold Same at h ⊢
  cases hx : x s with
  | ok a t =>
    rw [hx] at h
    generalize hx' : x s' = r at h
    cases h with
    | ok h =>
      rw [bind_of_ok hx, bind_of_ok hx']
      exact hf a t _ h hx
  | error stop t =>
    rw [hx] at h
    generalize hx' : x s' = r at h
    rw [bind_of_error hx]
    cases h with
    | abandoned h =>
      rw [bind_of_error hx']
      exact .abandoned h
    | stopped h =>
      rw [bind_of_error hx']
      exact .stopped h

theorem pure {a : α} (h : J s s') : Same R J s s' (Pure.pure a) := .ok h

theorem fail {cause : SyntaxCause} {t : Token} (h : R s s') :
    Same R J s s' (fail cause t : Parser α) := .abandoned h

theorem next_bind {f : Unit → Parser β} (h : Same R K s.advance s'.advance (f ())) :
    Same R K s s' (next >>= f) := h

variable (hR : InStep R) (hs : R s s')
include hR hs

theorem cur_bind {f : Token → Parser β} (h : Same R K s s' (f s.input.cur)) :
    Same R K s s' (cur >>= f) := by
  change Matches R K (f s.input.cur s) (f s'.input.cur s')
  rw [← hR.cur hs]
  exact h

theorem peek_bind {f : Token → Parser β} (ho : Open s) (h : Same R K s s' (f s.input.peek)) :
    Same R K s s' (peek >>= f) := by
  change Matches R K (f s.input.peek s) (f s'.input.peek s')
  rw [← hR.peek hs ho]
  exact h

theorem expect_bind {k : Kind} {f : Unit → Parser β} (ho : Open s)
    (h : s.input.peek.kind = k → Same R K s.advance s'.advance (f ())) :
    Same R K s s' (expect k >>= f) := by
  have hp : s'.peekIs k = s.peekIs k := by rw [peekIs, peekIs, hR.peek hs ho]
  unfold Same
  cases hk : s.peekIs k with
  | true =>
    rw [bind_of_ok (expect_of_peekIs hk), bind_of_ok (expect_of_peekIs (hp.trans hk))]
    exact h (peekIs_iff.mp hk)
  | false =>
    rw [bind_of_error (expect_of_not_peekIs hk),
      bind_of_error (expect_of_not_peekIs (hp.trans hk)), hR.peek hs ho]
    exact .abandoned hs

end Same

/-- Two loops whose rounds do the same, as long as they agree on going on. -/
theorem Same.loop {α : Type} {R J : ParserState → ParserState → Prop}
    {again : ParserState → Bool} {body : α → Parser α} (hb : Shrinks Ends again body)
    (hJ : ∀ s s', J s s' → s.Ends ∧ s'.Ends ∧ again s = again s')
    (hbody : ∀ a s s', J s s' → again s = true → Same R J s s' (body a))
    {s s' : ParserState} (hs : J s s') (a : α) :
    Same R (fun t t' => J t t' ∧ again t = false) s s' (loop again body a) := by
  induction hn : s.left using Nat.strongRecOn generalizing s s' a with
  | _ n ih =>
    obtain ⟨he, he', hag⟩ := hJ s s' hs
    unfold Same
    cases ha : again s with
    | false =>
      rw [loop_of_not_again ha, loop_of_not_again (hag ▸ ha)]
      exact .ok ⟨hs, ha⟩
    | true =>
      rw [loop_of_again hb he ha, loop_of_again hb he' (hag ▸ ha)]
      apply Same.bind (hbody a s s' hs ha)
      intro b t t' ht hx
      exact ih t.left (hn ▸ (hb a s b t he ha hx).2) ht b rfl

structure Near (R : ParserState → ParserState → Prop) (n : Nat) (s s' : ParserState) : Prop where
  rel : R s s'
  left_lt : s.left < n

/-- Such states on a token that ends an expression or stands within one. -/
structure Done (R : ParserState → ParserState → Prop) (n : Nat) (s s' : ParserState) : Prop
    extends Near R n s s' where
  closed : s.input.cur.kind ≠ .semicolon

def SameExpr (R : ParserState → ParserState → Prop) (n : Nat) : Prop :=
  ∀ p s s', Near R n s s' → Same R (Done R n) s s' (rule p)

section
variable {R : ParserState → ParserState → Prop} {n : Nat} {s s' : ParserState}

theorem Done.open (h : Done R n s s') : Open s := .inl h.closed

theorem Done.mono {m : Nat} (h : Done R n s s') (hm : n ≤ m) : Done R m s s' :=
  ⟨⟨h.rel, Nat.lt_of_lt_of_le h.left_lt hm⟩, h.closed⟩

variable (hR : InStep R)
include hR

theorem Near.advance (h : Near R n s s') (ho : Open s) : Near R n s.advance s'.advance := by
  refine ⟨hR.advance h.rel ho, ?_⟩
  have := h.left_lt
  rw [advance_left]
  omega

theorem Done.moved (h : Done R (n + 1) s s') (hpos : 0 < s.left) :
    Near R n s.advance s'.advance := by
  refine ⟨hR.advance h.rel h.open, ?_⟩
  have := h.left_lt
  rw [advance_left]
  omega

theorem Done.step {k : Kind} (h : Done R n s s') (hk : s.input.peek.kind = k)
    (hne : k ≠ .semicolon) : Done R n s.advance s'.advance :=
  ⟨h.toNear.advance hR h.open, by rwa [advance_cur, hk]⟩

/-! ## Lists -/

theorem same_parameter (h : Done R n s s') (ps : Array Ident) :
    Same R (Done R n) s s' (parameter ps) := by
  refine .expect_bind hR h.rel h.open fun hk => .cur_bind hR ?_ (.pure ?_)
  · exact hR.advance h.rel h.open
  · exact h.step hR hk (by decide)

theorem Done.agree_comma (h : Done R n s s') :
    s.Ends ∧ s'.Ends ∧ peekIs .comma s = peekIs .comma s' :=
  ⟨(hR.left h.rel).ends, (hR.right h.rel).ends, by rw [peekIs, peekIs, hR.peek h.rel h.open]⟩

theorem same_parameters (h : Done R n s s') : Same R (Done R n) s s' parameters := by
  unfold parameters
  apply Same.peek_bind hR h.rel h.open
  split
  · next hk => exact .next_bind (.pure (h.step hR hk (by decide)))
  · apply (same_parameter hR h _).bind
    intro first t t' ht _
    refine (Same.loop parameterRound_shrinks (fun _ _ hJ => hJ.agree_comma hR)
      (fun ps u u' hu hc => ?_) ht first).bind fun names u u' hu _ => ?_
    · exact .next_bind (same_parameter hR (hu.step hR (peekIs_iff.mp hc) (by decide)) ps)
    · exact .expect_bind hR hu.1.rel hu.1.open fun hk => .pure (hu.1.step hR hk (by decide))

variable (h : SameExpr R n)
include h

theorem same_expressionList {closer : Kind} (hc : closer ≠ .semicolon)
    (hs : Done R (n + 1) s s') (hpos : 0 < s.left) :
    Same R (Done R n) s s' (expressionList rule closer) := by
  have hnext := hs.moved hR hpos
  unfold expressionList
  apply Same.peek_bind hR hs.rel hs.open
  split
  · next hk => exact .next_bind (.pure ⟨hnext, by rwa [advance_cur, hk]⟩)
  · refine .next_bind ((h _ _ _ hnext).bind fun head t t' ht _ => ?_)
    refine (Same.loop listRound_shrinks_rule (fun _ _ hJ => hJ.agree_comma hR)
      (fun ns u u' hu hk => ?_) ht _).bind fun items u u' hu _ => ?_
    · have hcomma := hu.step hR (peekIs_iff.mp hk) (by decide)
      refine .next_bind (.next_bind ?_)
      exact (h _ _ _ (hcomma.toNear.advance hR hcomma.open)).bind fun _ _ _ ht _ => .pure ht
    · exact .expect_bind hR hu.1.rel hu.1.open fun hk => .pure (hu.1.step hR hk hc)

/-! ## Statements -/

omit h in
theorem same_skipOptional (hs : Done R n s s') :
    Same R (Near R n) s s' (skipOptional .semicolon) := by
  have hp : s'.peekIs .semicolon = s.peekIs .semicolon := by
    rw [peekIs, peekIs, hR.peek hs.rel hs.open]
  unfold Same
  cases hk : s.peekIs .semicolon with
  | true =>
    rw [skipOptional_of_peekIs hk, skipOptional_of_peekIs (hp.trans hk)]
    exact .ok (hs.toNear.advance hR hs.open)
  | false =>
    rw [skipOptional_of_not_peekIs hk, skipOptional_of_not_peekIs (hp.trans hk)]
    exact .ok hs.toNear

/-- A value, the semicolon that may follow, and what is made of the value. -/
theorem same_value {f : Node → Node} (hs : Near R n s s') : Same R (Near R n) s s'
    (rule .lowest >>= fun v => skipOptional .semicolon >>= fun _ => pure (f v)) :=
  (h _ _ _ hs).bind fun _ _ _ ht _ => (same_skipOptional hR ht).bind fun _ _ _ hu _ => .pure hu

theorem same_statement (hs : Near R n s s') (hk : s.input.cur.kind ≠ .semicolon) :
    Same R (Near R n) s s' (statement rule) := by
  have hd : Done R n s s' := ⟨hs, hk⟩
  have hnext := hs.advance hR hd.open
  unfold statement
  apply Same.cur_bind hR hs.rel
  split
  · unfold letStatement
    refine .cur_bind hR hs.rel (.expect_bind hR hs.rel hd.open fun hi => ?_)
    have hx := hd.step hR hi (by decide)
    refine .cur_bind hR hx.rel (.expect_bind hR hx.rel hx.open fun ha => ?_)
    have ha := hx.step hR ha (by decide)
    exact .next_bind (same_value hR h (ha.toNear.advance hR ha.open))
  · unfold returnStatement
    refine .cur_bind hR hs.rel (.peek_bind hR hs.rel hd.open ?_)
    split
    · exact .next_bind (.pure hnext)
    · exact .pure hs
    · exact .pure hs
    · exact .next_bind (same_value hR h hnext)
  · unfold expressionStatement
    exact .cur_bind hR hs.rel (same_value hR h hs)

omit h hR in
theorem statement_depth {m : Node} {t : ParserState} (hs : Proper s)
    (he : s.input.cur.kind ≠ .eof) (hx : statement rule s = .ok m t) :
    t.advance.depth = s.depth := by
  obtain ⟨ts, hst, hend⟩ := statement_sound (sound _) hs (Nat.lt_succ_self _) he hx
  have hb := hst.balanced
  cases hend with
  | closed hc ht => rw [ht.passes.depth_eq, (hb.append (.kind hc (by decide) .nil)) s.depth]
  | opened ht => rw [ht.passes.depth_eq, hb s.depth]

omit h hR in
theorem open_of_depth {t : ParserState} (h : t.advance.depth ≠ 0) : Open t := by
  by_cases hk : t.input.cur.kind = .semicolon
  · refine .inr ?_
    have hd : t.advance.depth = t.depth := depthAfter_other (hk ▸ by decide)
    rwa [hd] at h
  · exact .inl hk

structure Inner (R : ParserState → ParserState → Prop) (n : Nat) (s s' : ParserState) : Prop
    extends Near R n s s' where
  depth_ne : s.depth ≠ 0

theorem same_blockRound (hs : Inner R n s s') (ns : Array Node) :
    Same R (Inner R n) s s' (blockRound rule ns) := by
  have ho : Open s := .inr hs.depth_ne
  unfold Same
  by_cases he : s.input.cur.kind = .eof
  · rw [blockRound_of_eof he, blockRound_of_eof (hR.cur hs.rel ▸ he), hR.cur hs.rel]
    exact .abandoned hs.rel
  · by_cases hk : s.input.cur.kind = .semicolon
    · rw [blockRound_of_semicolon hk, blockRound_of_semicolon (hR.cur hs.rel ▸ hk)]
      refine .ok ⟨hs.toNear.advance hR ho, ?_⟩
      have hd : s.advance.depth = s.depth := depthAfter_other (hk ▸ by decide)
      rw [hd]
      exact hs.depth_ne
    · rw [blockRound_of_other he hk, blockRound_of_other (hR.cur hs.rel ▸ he) (hR.cur hs.rel ▸ hk)]
      apply Same.bind (same_statement hR h hs.toNear hk)
      intro m t t' ht hx
      have hd := statement_depth (hR.left hs.rel).proper he hx
      have hne : t.advance.depth ≠ 0 := hd ▸ hs.depth_ne
      exact .next_bind (.pure ⟨ht.advance hR (open_of_depth hne), hne⟩)

theorem same_block (hs : Done R (n + 1) s s') (hk : s.input.cur.kind = .lbrace) :
    Same R (Done R n) s s' (block rule) := by
  have hpos := left_pos_of_cur (hR.left hs.rel).ends (by simp [hk])
  have hinner : Inner R n s.advance s'.advance := by
    refine ⟨hs.moved hR hpos, ?_⟩
    have hd : s.advance.depth = s.depth + 1 := depthAfter_opener (hk ▸ by decide)
    rw [hd]
    exact Nat.succ_ne_zero _
  unfold block
  refine .cur_bind hR hs.rel (.next_bind ?_)
  refine (Same.loop blockRound_shrinks_rule (fun u u' hu => ⟨(hR.left hu.rel).ends,
    (hR.right hu.rel).ends, by rw [curIs, curIs, hR.cur hu.rel]⟩)
    (fun ns u u' hu _ => same_blockRound hR h hu ns) hinner _).bind fun ns t t' ht _ => .pure ?_
  refine ⟨ht.1.toNear, ?_⟩
  have hr : t.input.cur.kind = .rbrace := by simpa [curIs] using ht.2
  rw [hr]
  decide

theorem same_branch (hs : Done R n s s') : Same R (Done R n) s s' (branch rule) := by
  unfold branch
  apply Same.expect_bind hR hs.rel hs.open
  intro hk
  apply same_block hR h ((hs.step hR hk (by decide)).mono (Nat.le_succ n))
  rw [advance_cur, hk]

/-! ## Expressions -/

theorem same_prefixExpression (hs : Done R (n + 1) s s') (hpos : 0 < s.left) :
    Same R (Done R n) s s' (prefixExpression rule) := by
  unfold prefixExpression
  refine .cur_bind hR hs.rel (.next_bind ?_)
  exact (h _ _ _ (hs.moved hR hpos)).bind fun _ _ _ ht _ => .pure ht

theorem same_groupedExpression (hs : Done R (n + 1) s s') (hpos : 0 < s.left) :
    Same R (Done R n) s s' (groupedExpression rule) := by
  unfold groupedExpression
  refine .next_bind ((h _ _ _ (hs.moved hR hpos)).bind fun _ _ _ ht _ => ?_)
  exact .expect_bind hR ht.rel ht.open fun hk => .pure (ht.step hR hk (by decide))

theorem same_ifExpression (hs : Done R (n + 1) s s') (hpos : 0 < s.left) :
    Same R (Done R n) s s' (ifExpression rule) := by
  have hnext := hs.moved hR hpos
  unfold ifExpression
  refine .cur_bind hR hs.rel (.expect_bind hR hs.rel hs.open fun hk => .next_bind ?_)
  have hl : Done R n s.advance s'.advance := ⟨hnext, by rw [advance_cur, hk]; decide⟩
  apply (h _ _ _ (hnext.advance hR hl.open)).bind
  intro c t t' ht _
  apply Same.expect_bind hR ht.rel ht.open
  intro hk
  apply (same_branch hR h (ht.step hR hk (by decide))).bind
  intro a u u' hu _
  apply Same.peek_bind hR hu.rel hu.open
  split
  · next hk =>
    refine .next_bind ((same_branch hR h (hu.step hR hk (by decide))).bind fun _ _ _ hv _ => ?_)
    exact .pure hv
  · exact .pure hu

theorem same_functionLiteral (hs : Done R (n + 1) s s') (hpos : 0 < s.left) :
    Same R (Done R n) s s' (functionLiteral rule) := by
  unfold functionLiteral
  refine .cur_bind hR hs.rel (.expect_bind hR hs.rel hs.open fun hk => ?_)
  have hl : Done R n s.advance s'.advance := ⟨hs.moved hR hpos, by rw [advance_cur, hk]; decide⟩
  apply (same_parameters hR hl).bind
  intro ps t t' ht _
  exact (same_branch hR h ht).bind fun _ _ _ hu _ => .pure hu

omit h in
theorem same_integerLiteral (hs : Done R n s s') : Same R (Done R n) s s' integerLiteral := by
  unfold integerLiteral
  apply Same.cur_bind hR hs.rel
  split
  · split
    · exact .fail hs.rel
    · exact .pure hs
  · exact .stopped (by simp)

theorem same_operand (hs : Near R (n + 1) s s') : Same R (Done R (n + 1)) s s' (operand rule) := by
  have done {k : Kind} (hk : s.input.cur.kind = k) (hne : k ≠ .semicolon) :
      Done R (n + 1) s s' := ⟨hs, hk ▸ hne⟩
  have pos {k : Kind} (hk : s.input.cur.kind = k) (hne : k ≠ .eof) : 0 < s.left :=
    left_pos_of_cur (hR.left hs.rel).ends (hk ▸ hne)
  have lift {x : Parser Node} (hx : Same R (Done R n) s s' x) : Same R (Done R (n + 1)) s s' x :=
    hx.imp fun _ _ ht => ht.mono (Nat.le_succ n)
  unfold operand
  apply Same.cur_bind hR hs.rel
  split
  · next hk => exact .cur_bind hR hs.rel (.pure (done hk (by decide)))
  · next hk => exact same_integerLiteral hR (done hk (by decide))
  · next hk => exact .cur_bind hR hs.rel (.pure (done hk (by decide)))
  · next hk => exact .cur_bind hR hs.rel (.pure (done hk (by decide)))
  · next hk => exact .cur_bind hR hs.rel (.pure (done hk (by decide)))
  · next hk =>
    exact lift (same_prefixExpression hR h (done hk (by decide)) (pos hk (by decide)))
  · next hk =>
    exact lift (same_prefixExpression hR h (done hk (by decide)) (pos hk (by decide)))
  · next hk =>
    exact lift (same_groupedExpression hR h (done hk (by decide)) (pos hk (by decide)))
  · next hk =>
    unfold arrayLiteral
    refine .cur_bind hR hs.rel (lift ?_)
    exact (same_expressionList hR h (by decide) (done hk (by decide)) (pos hk (by decide))).bind
      fun _ _ _ ht _ => .pure ht
  · next hk => exact lift (same_ifExpression hR h (done hk (by decide)) (pos hk (by decide)))
  · next hk => exact lift (same_functionLiteral hR h (done hk (by decide)) (pos hk (by decide)))
  · exact .fail hs.rel
  · exact .fail hs.rel

theorem same_continuation {p : Precedence} (hs : Done R (n + 1) s s') (hb : binds p s = true)
    (left : Node) : Same R (Done R (n + 1)) s s' (continuation rule left) := by
  have hleft := one_lt_left_of_binds (hR.left hs.rel).ends hb
  have hpos : 0 < s.advance.left := by
    rw [advance_left]
    omega
  have hop : s.input.peek.kind ≠ .semicolon := by
    intro hk
    have hlt := of_decide_eq_true hb
    rw [hk] at hlt
    cases p <;> exact absurd hlt (by decide)
  have hd : Done R (n + 1) s.advance s'.advance := hs.step hR rfl hop
  have hnext := hd.moved hR hpos
  unfold continuation
  refine .next_bind (.cur_bind hR hd.rel ?_)
  refine Same.imp (J := Done R n) ?_ fun _ _ ht => ht.mono (Nat.le_succ n)
  split
  · unfold callExpression
    apply Same.cur_bind hR hd.rel
    exact (same_expressionList hR h (by decide) hd hpos).bind fun _ _ _ ht _ => .pure ht
  · unfold indexExpression
    refine .cur_bind hR hd.rel (.next_bind ((h _ _ _ hnext).bind fun _ _ _ ht _ => ?_))
    exact .expect_bind hR ht.rel ht.open fun hk => .pure (ht.step hR hk (by decide))
  · unfold infixExpression
    refine .cur_bind hR hd.rel (.next_bind ?_)
    exact (h _ _ _ hnext).bind fun _ _ _ ht _ => .pure ht

theorem sameExpr_succ : SameExpr R (n + 1) := by
  intro p s s' hs
  unfold Same
  rw [rule_eq (hR.left hs.rel).ends, rule_eq (hR.right hs.rel).ends]
  apply Same.bind (same_operand hR h hs)
  intro left t t' ht _
  refine (Same.loop (continuation_shrinks_rule p) (fun u u' hu => ⟨(hR.left hu.rel).ends,
    (hR.right hu.rel).ends, by rw [binds, binds, hR.peek hu.rel hu.open]⟩)
    (fun left u u' hu hb => same_continuation hR h hu hb left) ht left).imp fun _ _ hu => hu.1

end

/-- In whatever states a rule cannot tell apart, expressions are read in step. -/
theorem sameExpr {R : ParserState → ParserState → Prop} (hR : InStep R) (n : Nat) :
    SameExpr R n := by
  induction n with
  | zero => exact fun _ _ _ hs => absurd hs.left_lt (Nat.not_lt_zero _)
  | succ n ih => exact sameExpr_succ hR ih

end Simian.Parser
