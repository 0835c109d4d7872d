import Simian.Proofs.Grammar.Exact
import Simian.Proofs.Positions
import Simian.Proofs.Recovery

/-!
# The tokens that errors are about

A program is read to its end, however malformed, and its errors are about tokens further and
further on. Recovery takes the token that an error is about. This is so even where the next token
was blamed: a rule that looks at the next token is not on a semicolon outside brackets, so
recovery does not stop before that token.
-/

namespace Simian.ParserState

set_option autoImplicit false

/-! ## Inputs -/

section
variable {s t u : ParserState}

theorem tokens_eq_cons (hs : s.Ends) (h : s.input.cur.kind ≠ .eof) :
    s.input.tokens = s.input.cur :: s.input.next.tokens := by
  obtain ⟨⟨tokens, eof⟩, depth, errors⟩ := s
  cases tokens with
  | nil => exact absurd hs h
  | cons a as => rfl

theorem toList_eq_cons (hs : s.Ends) (h : s.input.cur.kind ≠ .eof) :
    s.input.toList = s.input.cur :: s.advance.input.toList := by
  rw [TokenStream.toList, tokens_eq_cons hs h]
  rfl

theorem get_mem_toList (input : TokenStream) (i : Nat) : input.get i ∈ input.toList := by
  rw [TokenStream.get, TokenStream.toList, List.getD_eq_getElem?_getD]
  cases h : input.tokens[i]? with
  | none => exact List.mem_append_right _ List.mem_cons_self
  | some t => exact List.mem_append_left _ (List.mem_of_getElem? h)

theorem Reaches.toList_suffix (h : Reaches s t) : t.input.toList <:+ s.input.toList := by
  obtain ⟨n, rfl⟩ := h
  obtain ⟨ts, hts⟩ := (show Reaches s _ from ⟨n, rfl⟩).input_suffix
  refine ⟨ts, ?_⟩
  rw [TokenStream.toList, TokenStream.toList, ← List.append_assoc, hts, iterate_advance_eof]

theorem exists_passes (hs : s.Ends) (h : Reaches s u) (hu : u.input.cur.kind ≠ .eof) :
    ∃ ts, Passes s ts u := by
  have hpos := left_pos_of_cur (h.ends hs) hu
  obtain ⟨n, rfl⟩ := h
  rw [left, iterate_advance_tokens, List.length_drop] at hpos
  refine ⟨s.input.tokens.take n, List.take_prefix n _, ?_⟩
  rw [List.length_take, Nat.min_eq_left (by omega)]

end

end Simian.ParserState

namespace Simian.Parser

open ParserState Grammar
set_option autoImplicit false

section
variable {s t u v : ParserState} {e : SyntaxError}

/-- A statement may begin here: numerals can be read, only the end is an end token, and no bracket
is open. -/
structure Ready (s : ParserState) : Prop where
  legible : Legible s
  ne_eof : ∀ t ∈ s.input.tokens, t.kind ≠ .eof
  depth : s.depth = 0

theorem Ready.of_reaches (hs : Ready s) (h : Reaches s t) (hd : t.depth = 0) : Ready t :=
  ⟨hs.legible.of_reaches h, fun a ha => hs.ne_eof a (h.input_suffix.subset ha), hd⟩

theorem Ready.resumed (hs : Ready s) (h : Reaches s u) (hv : Reaches (u.record e) v) :
    Ready (resumed v) := by
  have hsuffix := hv.input_suffix.trans h.input_suffix
  refine ⟨⟨hv.ends (h.ends hs.legible.ends), fun a ha => ?_⟩, fun a ha => ?_, rfl⟩
  · exact hs.legible.readable a (hsuffix.subset ha)
  · exact hs.ne_eof a (hsuffix.subset ha)

/-! ## What is blamed -/

/-- An end of input that is not the token `t`. -/
def otherEnd (t : Token) : Token := ⟨.eof, "", ⟨t.position.line + 1, 1⟩⟩

theorem ne_otherEnd (t : Token) : t ≠ otherEnd t := by
  intro h
  have hline : t.position.line = t.position.line + 1 := congrArg (fun t => t.position.line) h
  omega

/-- The same up to the token of `u`, where the input ends. -/
def cutBehind (s : ParserState) (ts : List Token) (c eof : Token) : ParserState :=
  ⟨⟨ts ++ [c], eof⟩, s.depth, s.errors⟩

theorem barrier_cutBehind {ts : List Token} (hs : Ready s) (h : Passes s ts u)
    (hc : u.input.cur.kind ≠ .eof) (hd : u.depth = 0) {eof : Token} (heof : eof.kind = .eof) :
    Barrier u.input.cur u.input.next s (cutBehind s ts u.input.cur eof) := by
  have hends := h.reaches.ends hs.legible.ends
  have htokens : s.input.tokens = ts ++ u.input.cur :: u.input.next.tokens := by
    rw [← tokens_eq_cons hends hc, h.tokens]
  have hsub : ∀ t ∈ ts ++ [u.input.cur], t ∈ s.input.tokens := by
    rw [htokens]
    exact fun t ht => (List.prefix_append_right_inj ts |>.mpr ⟨_, rfl⟩).subset ht
  refine ⟨hs.legible, ⟨heof, fun t ht => hs.legible.readable t (hsub t ht)⟩, rfl, ?_, ts, htokens,
    rfl, h.depth_eq ▸ hd, fun t ht => hs.ne_eof t (hsub t (List.mem_append_left _ ht))⟩
  rw [h.eq, TokenStream.next_eof, iterate_advance_eof]

/-- A statement that is given up on a semicolon outside brackets is given up for that token, and
not for what is behind it. -/
theorem blamed_of_not_open (hs : Ready s) (hk : s.input.cur.kind ≠ .semicolon) (hsu : Reaches s u)
    (hx : statement rule s = .error .abandoned (u.record e)) (ho : ¬ Open u) :
    e.token = u.input.cur := by
  obtain ⟨hc, hd⟩ := not_or.mp ho
  have hc := not_not.mp hc
  have hne : u.input.cur.kind ≠ .eof := hc ▸ by decide
  obtain ⟨ts, hts⟩ := exists_passes hs.legible.ends hsu hne
  -- On the input cut off behind the semicolon the same token is blamed, with another one next.
  have heof : (otherEnd e.token).kind = .eof := rfl
  have hbar := barrier_cutBehind hs hts hne (not_not.mp hd) heof
  have hstep : InStep (Barrier u.input.cur u.input.next) := (parting_barrier hc).inStep
  have hsame := same_statement hstep (sameExpr hstep _) ⟨hbar, Nat.lt_succ_self _⟩ hk
  unfold Same at hsame
  generalize hx₁ : statement rule s = r, hx₂ : statement rule (cutBehind s ts _ _) = r' at hsame
  rw [hx] at hx₁
  cases hsame with
  | ok => cases hx₁
  | stopped hstop =>
    cases hx₁
    exact absurd rfl hstop
  | @abandoned f w w' hw =>
    obtain ⟨rfl, rfl⟩ := record_inj (EStateM.Result.error.inj hx₁).2
    obtain ⟨w₁, g, hw₁, hg, heq⟩ := abandoned_reaches (statement_runs hbar.right.ends) hx₂
    obtain ⟨rfl, rfl⟩ := record_inj heq
    rw [← hw.cur] at hg
    refine hg.resolve_right fun hpeek => ne_otherEnd e.token (hpeek.trans ?_)
    obtain ⟨us, hus, hus', -⟩ := hw.ahead
    have hnil : us = [] := by
      rw [tokens_eq_cons (hsu.ends hs.legible.ends) hne] at hus
      have hlen := congrArg List.length hus
      rw [List.length_append] at hlen
      exact List.eq_nil_of_length_eq_zero (by omega)
    obtain ⟨n, rfl⟩ := hw₁
    rw [TokenStream.peek, TokenStream.get, hus', hnil, iterate_advance_eof]
    rfl

/-- Recovery takes the current token, if that is not the end. -/
theorem synchronize_takes (hs : s.Ends) (h : synchronize s = .ok () v)
    (he : s.input.cur.kind ≠ .eof) : Reaches s.advance v := by
  by_cases hk : s.input.cur.kind = .semicolon ∧ s.depth = 0
  · rw [synchronize_of_semicolon hk.1 hk.2] at h
    cases h
    exact .refl _
  · rw [synchronize_of_other hs he fun hk' hd => hk ⟨hk', hd⟩] at h
    obtain ⟨w, hw, hsw, -⟩ := synchronize_ends hs.advance
    rw [hw] at h
    cases h
    exact hsw

/-- The token that an error is about comes before what recovery leaves, unless nothing is left. -/
theorem cur_cons_sublist (hs : s.Ends) (h : synchronize s = .ok () v) {ts : List Token}
    (hts : ts.Sublist v.input.toList) (hnil : v.input.cur.kind = .eof → ts = []) :
    (s.input.cur :: ts).Sublist s.input.toList := by
  by_cases he : s.input.cur.kind = .eof
  · rw [synchronize_of_eof he] at h
    cases h
    rw [hnil he]
    exact List.singleton_sublist.mpr (get_mem_toList s.input 0)
  · rw [toList_eq_cons hs he]
    exact (hts.trans (synchronize_takes hs h he).toList_suffix.sublist).cons_cons _

theorem blamed_cons_sublist (hs : Ready s) (hk : s.input.cur.kind ≠ .semicolon)
    (hsu : Reaches s u) (hx : statement rule s = .error .abandoned (u.record e))
    (hv : synchronize (u.record e) = .ok () v) {ts : List Token}
    (hts : ts.Sublist v.input.toList) (hnil : v.input.cur.kind = .eof → ts = []) :
    (e.token :: ts).Sublist u.input.toList := by
  have hu : (u.record e).Ends := hsu.ends hs.legible.ends
  have hcur := cur_cons_sublist hu hv hts hnil
  by_cases ho : Open u
  · obtain ⟨w, f, -, hf, heq⟩ := abandoned_reaches (statement_runs hs.legible.ends) hx
    obtain ⟨rfl, rfl⟩ := record_inj heq
    rcases hf with hf | hf
    · rw [hf]
      exact hcur
    · rw [hf]
      by_cases he : (u.record e).input.cur.kind = .eof
      · rw [synchronize_of_eof he] at hv
        cases hv
        rw [hnil he]
        exact List.singleton_sublist.mpr (get_mem_toList u.input 1)
      · rw [synchronize_of_other hu he fun hk => ho.resolve_left (not_not.mpr hk)] at hv
        have hpeek := cur_cons_sublist hu.advance hv hts hnil
        rw [advance_cur] at hpeek
        exact hpeek.trans (Reaches.step _).toList_suffix.sublist
  · rw [blamed_of_not_open hs hk hsu hx ho]
    exact hcur

/-- A program read from `s` to the end `t` records errors about tokens of its input, one behind the
other. -/
structure Finishes (s t : ParserState) : Prop where
  input : t.input.toList <:+ s.input.toList
  errors : ∃ es : List SyntaxError, t.errors.toList = s.errors.toList ++ es ∧
    (es.map SyntaxError.token).Sublist s.input.toList ∧ (s.input.cur.kind = .eof → es = [])

theorem Finishes.of_reaches (h : Finishes u t) (hsu : Reaches s u) (he : s.input.cur.kind ≠ .eof) :
    Finishes s t := by
  obtain ⟨es, hes, hsub, -⟩ := h.errors
  refine ⟨h.input.trans hsu.toList_suffix, es, ?_, hsub.trans hsu.toList_suffix.sublist,
    fun h => absurd h he⟩
  rw [hes, hsu.errors_eq]

theorem Finishes.of_abandoned (hs : Ready s) (he : s.input.cur.kind ≠ .eof)
    (hk : s.input.cur.kind ≠ .semicolon) (hx : statement rule s = .error .abandoned (u.record e))
    (hsu : Reaches s u) (hv : synchronize (u.record e) = .ok () v) (huv : Reaches (u.record e) v)
    (h : Finishes (resumed v) t) : Finishes s t := by
  obtain ⟨es, hes, hsub, hnil⟩ := h.errors
  refine ⟨(h.input.trans huv.toList_suffix).trans hsu.toList_suffix, e :: es, ?_, ?_,
    fun h => absurd h he⟩
  · rw [hes, resumed_errors hsu huv, Array.toList_push, List.append_assoc, List.singleton_append]
  · have hblamed := blamed_cons_sublist hs hk hsu hx hv hsub fun hv => by rw [hnil hv, List.map_nil]
    exact hblamed.trans hsu.toList_suffix.sublist

theorem programFrom_finishes {ss ts : Array Node} (hs : Ready s)
    (h : programFrom ss s = .ok ts t) : Finishes s t := by
  refine programFrom_induction (motive := fun _ s => Ready s → Finishes s t) ?_ ?_ ?_ ?_
    hs.legible.ends h hs
  · intro _ _
    exact ⟨List.suffix_refl _, [], (List.append_nil _).symm, List.nil_sublist _, fun _ => rfl⟩
  · intro _ s _ hk ih hs
    have hd : s.advance.depth = 0 := (depthAfter_other (hk ▸ by decide)).trans hs.depth
    exact (ih (hs.of_reaches (.step s) hd)).of_reaches (.step s) (hk ▸ by decide)
  · intro _ s n u hends he hk hx ih hs
    have hsu := ((statement_runs hends).reaches hx).trans (.step u)
    have hd := (statement_depth hs.legible.proper he hx).trans hs.depth
    exact (ih (hs.of_reaches hsu hd)).of_reaches hsu he
  · intro _ s u e v _ he hk hx hsu hv huv _ ih hs
    exact .of_abandoned hs he hk hx hsu hv huv (ih (hs.resumed hsu huv))

theorem Finishes.input_eq (hs : Ready s) (h : Finishes s t) (hend : t.input.cur.kind = .eof) :
    t.input = ⟨[], s.input.eof⟩ := by
  obtain ⟨ts, hts⟩ := h.input
  obtain ⟨⟨tokens, eof⟩, depth, errors⟩ := t
  rw [TokenStream.toList, TokenStream.toList, ← List.append_assoc] at hts
  obtain ⟨htokens, heof⟩ := List.append_inj' hts rfl
  obtain rfl := List.singleton_inj.mp heof
  cases tokens with
  | nil => rfl
  | cons a as =>
    refine absurd hend (hs.ne_eof a ?_)
    rw [← htokens]
    exact List.mem_append_right ts List.mem_cons_self

/-- A program whose numerals can be read is read to its end. -/
theorem exists_programFrom (hs : Legible s) (hd : s.depth = 0) (ss : Array Node) :
    ∃ ts t, programFrom ss s = .ok ts t ∧ t.input.cur.kind = .eof := by
  obtain ⟨ns, es, t, -, ht, -, hend, -⟩ := programFrom_parts parting_alike ⟨hs, rfl, rfl⟩ hd
  exact ⟨_, t, (ht.program ss).trans (programFrom_of_eof hend), hend⟩

end

end Simian.Parser

namespace Simian

open Simian.Parser ParserState Grammar
set_option autoImplicit false

/-- The errors of a reading that ends in the state `t`, as messages name their places: each place
comes behind the one before, and belongs to a token of the source. -/
structure BlamesInOrder (source : String) (t : ParserState) : Prop where
  blamed : (t.errors.toList.map SyntaxError.token).Sublist (tokenize source).toList
  places : (t.errors.toList.map fun e => e.token.position).Pairwise Position.Before
  named : ∀ e ∈ t.errors.toList, e.message = e.reason ++ " at " ++
    toString e.token.position.line ++ ":" ++ toString e.token.position.column

/-- A source whose numerals can be read is read to its end token, however malformed. Its errors are
about tokens of the source, the end included, at places that come strictly one behind the other. -/
theorem faults_in_order {source : String}
    (h : ∀ t ∈ (tokenize source).tokens, t.kind = .int → t.literal.length ≤ Text.digitLimit) :
    ∃ ns t, complete programStatements (ofStream (tokenize source)) = .ok ns t ∧
      parse source = .ok ⟨ns, t.errors.toList⟩ ∧ t.input = ⟨[], (tokenize source).eof⟩ ∧
      BlamesInOrder source t := by
  obtain ⟨heof, hall⟩ := tokenize_spelled source
  have hs : Ready (ofStream (tokenize source)) :=
    ⟨legible_source h, fun t ht => (hall t ht).ne_eof, rfl⟩
  obtain ⟨ss, t, hx, hend⟩ := exists_programFrom hs.legible hs.depth #[]
  have hrun : complete programStatements (ofStream (tokenize source)) = .ok ss.toList t := by
    have hrule : complete programStatements (ofStream (tokenize source)) =
        programStatements rule (ofStream (tokenize source)) :=
      programStatements_congr (expressionUpTo_agree_rule _) ⟨heof, Nat.lt_succ_self _⟩
    rw [hrule]
    exact bind_of_ok hx
  have hfinishes := programFrom_finishes hs hx
  obtain ⟨es, hes, hsub, -⟩ := hfinishes.errors
  have hes : t.errors.toList = es := hes
  refine ⟨ss.toList, t, hrun, ?_, ?_, ?_, ?_, fun e _ => ?_⟩
  · rw [parse, parseStream, hrun]
  · exact hfinishes.input_eq hs hend
  · rw [hes]
    exact hsub
  · have hplaces := (tokenize_positions source).sublist hsub
    rw [List.pairwise_map] at hplaces
    rwa [hes, List.pairwise_map]
  · rw [SyntaxError.message, Position.text]
    simp only [String.append_assoc]

/-- A missing `=` before a token that is skipped with the rest of its statement, a missing closing
parenthesis where a semicolon stands, and a missing name at the end. -/
theorem faults_in_order_three :
    (∀ t ∈ (tokenize "let x 5; (1;\n2); let").tokens, t.kind = .int →
      t.literal.length ≤ Text.digitLimit) ∧
    (∃ ns t, complete programStatements (ofStream (tokenize "let x 5; (1;\n2); let")) = .ok ns t ∧
      parse "let x 5; (1;\n2); let" = .ok ⟨ns, t.errors.toList⟩ ∧
      t.input = ⟨[], (tokenize "let x 5; (1;\n2); let").eof⟩ ∧
      BlamesInOrder "let x 5; (1;\n2); let" t) ∧
    (parse "let x 5; (1;\n2); let").map (fun p => p.errors.map fun e => e.token.position) =
      .ok [⟨1, 7⟩, ⟨1, 12⟩, ⟨2, 8⟩] :=
  ⟨by decide, faults_in_order (by decide), rfl⟩

end Simian
