import Simian.Proofs.Parser.InStep

/-!
# Recovery is compositional

A syntax error is of no consequence beyond the next semicolon outside brackets. Where the tokens
before such a semicolon leave no bracket open, by a count that does not tell brackets apart, the
source is parsed as its two parts are: the statements and the errors of the first part, and then
those of the second.

Two programs that cannot be told apart are read in step until they part. Read against its first
part alone, a source is in step up to the semicolon; read against its second part, from there on.
-/

namespace Simian

open Text Simian.Parser ParserState Grammar
set_option autoImplicit false

/-- States that `R` relates cannot be told apart until they are related by `E`: at the end, or
behind a semicolon outside brackets. -/
structure Parting (R E : ParserState → ParserState → Prop) : Prop where
  inStep : InStep R
  stop {s s' : ParserState} : R s s' → s.input.cur.kind = .eof → E (resumed s) (resumed s')
  leave {s s' : ParserState} : R s s' → ¬ Open s → R s.advance s'.advance ∨ E s.advance s'.advance

/-- From `s` to `t` a program gains the statements `ns` and the errors `es`. -/
structure Gains (ns : Array Node) (es : Array SyntaxError) (s t : ParserState) : Prop where
  errors : t.errors = s.errors ++ es
  program : ∀ ss, programFrom ss s = programFrom (ss ++ ns) t

/-- Two programs gain the same up to states that `E` relates. -/
def Parts (E : ParserState → ParserState → Prop) (s s' : ParserState) : Prop :=
  ∃ (ns : Array Node) (es : Array SyntaxError) (v v' : ParserState),
    Gains ns es s v ∧ Gains ns es s' v' ∧ E v v'

section
variable {R E : ParserState → ParserState → Prop} {s s' t t' u : ParserState}
  {ms ns : Array Node} {es fs : Array SyntaxError}

theorem resumed_eq (h : s.depth = 0) : resumed s = s := by
  obtain ⟨input, depth, errors⟩ := s
  cases h
  rfl

theorem Gains.refl (s : ParserState) : Gains #[] #[] s s :=
  ⟨Array.append_empty.symm, fun ss => by rw [Array.append_empty]⟩

theorem Gains.trans (h : Gains ns es s t) (h' : Gains ms fs t u) :
    Gains (ns ++ ms) (es ++ fs) s u := by
  refine ⟨?_, fun ss => ?_⟩
  · rw [h'.errors, h.errors, Array.append_assoc]
  · rw [h.program, h'.program, Array.append_assoc]

theorem Gains.of_semicolon (hs : s.Ends) (h : s.input.cur.kind = .semicolon) :
    Gains #[] #[] s s.advance := by
  refine ⟨Array.append_empty.symm, fun ss => ?_⟩
  rw [Array.append_empty, programFrom_of_semicolon hs h]

theorem Gains.of_ok {n : Node} (hs : s.Ends) (he : s.input.cur.kind ≠ .eof)
    (hk : s.input.cur.kind ≠ .semicolon) (h : statement rule s = .ok n t) :
    Gains #[n] #[] s t.advance := by
  refine ⟨?_, fun ss => programFrom_of_ok hs he hk h⟩
  rw [advance_errors, ((statement_runs hs).reaches h).errors_eq, Array.append_empty]

theorem abandoned_errors {α : Type} {x y : Parser α} {e : SyntaxError} (h : Runs s x y)
    (hx : x s = .error .abandoned (t.record e)) : t.errors = s.errors := by
  obtain ⟨u, f, hu, -, heq⟩ := abandoned_reaches h hx
  have herr : t.errors.push e = u.errors.push f := congrArg ParserState.errors heq
  exact (Array.push_eq_push.mp herr).2.trans hu.errors_eq

theorem Gains.of_abandoned {e : SyntaxError} (hs : s.Ends) (he : s.input.cur.kind ≠ .eof)
    (hk : s.input.cur.kind ≠ .semicolon)
    (h : statement rule s = .error .abandoned (t.record e))
    (hu : synchronize (t.record e) = .ok () u) (ht : Reaches (t.record e) u) :
    Gains #[] #[e] s (resumed u) := by
  refine ⟨?_, fun ss => ?_⟩
  · rw [Array.append_singleton, ← abandoned_errors (statement_runs hs) h]
    exact ht.errors_eq
  · rw [Array.append_empty, programFrom_of_abandoned hs he hk h hu]

theorem Parts.refl (h : E s s') : Parts E s s' := ⟨#[], #[], s, s', .refl s, .refl s', h⟩

variable (hR : Parting R E)
include hR

/-- Recovery goes on in step, to the end or to behind a semicolon outside brackets. -/
theorem synchronize_parts (hs : R s s') : ∃ v v', synchronize s = .ok () v ∧
    synchronize s' = .ok () v' ∧ Reaches s v ∧ Reaches s' v' ∧
    (E (resumed v) (resumed v') ∨ R v v' ∧ v.depth = 0) := by
  induction hn : s.left using Nat.strongRecOn generalizing s s' with
  | _ n ih =>
    have hends := (hR.inStep.left hs).ends
    have hends' := (hR.inStep.right hs).ends
    have hcur := hR.inStep.cur hs
    have hdepth := hR.inStep.depth hs
    by_cases he : s.input.cur.kind = .eof
    · exact ⟨s, s', synchronize_of_eof he, synchronize_of_eof (hcur ▸ he), .refl s, .refl s',
        .inl (hR.stop hs he)⟩
    · by_cases ho : Open s
      · have hpos := left_pos_of_cur hends he
        obtain ⟨v, v', hv, hv', hsv, hsv', hE⟩ := ih s.advance.left
          (by rw [advance_left]; omega) (hR.inStep.advance hs ho) rfl
        refine ⟨v, v', ?_, ?_, hsv.of_advance, hsv'.of_advance, hE⟩
        · rw [synchronize_of_other hends he fun hk => ho.resolve_left (not_not.mpr hk)]
          exact hv
        · rw [synchronize_of_other hends' (hcur ▸ he)
            fun hk => hdepth ▸ ho.resolve_left (not_not.mpr (hcur ▸ hk))]
          exact hv'
      · obtain ⟨hk, hd⟩ := not_or.mp ho
        have hk := not_not.mp hk
        have hd := not_not.mp hd
        refine ⟨s.advance, s'.advance, synchronize_of_semicolon hk hd,
          synchronize_of_semicolon (hcur ▸ hk) (hdepth ▸ hd), .step s, .step s', ?_⟩
        have hd1 : s.advance.depth = 0 := (depthAfter_other (hk ▸ by decide)).trans hd
        have hd1' : s'.advance.depth = 0 :=
          (depthAfter_other (hcur ▸ hk ▸ by decide)).trans (hdepth ▸ hd)
        rw [resumed_eq hd1, resumed_eq hd1']
        exact (hR.leave hs ho).symm.imp_right fun h => ⟨h, hd1⟩

omit hR in
/-- Where numerals can be read, a statement that ends without a result is given up. -/
theorem statement_abandoned {stop : Stop} {t : ParserState} (hs : Legible s)
    (hx : statement rule s = .error stop t) : stop = .abandoned := by
  have ho := (statement_runs hs.ends).outcome
  rw [hx] at ho
  cases ho with
  | abandoned => rfl
  | @numeral _ fault hst hk hf =>
    have ht := hs.of_reaches hst
    have hmem := (Takes.of_cur ht.ends hk (by decide)).subset (List.mem_singleton_self _)
    rw [ht.readable _ hmem hk] at hf
    cases hf

/-- States from which two programs go on: they have parted, or they are still in step and have
come closer to the end than the state `s` is. -/
def Onward (R E : ParserState → ParserState → Prop) (s t t' : ParserState) : Prop :=
  E t t' ∨ R t t' ∧ t.depth = 0 ∧ t.left < s.left

theorem Parting.onward (ht : R t t') (hd : t.advance.depth = 0) (hlt : t.advance.left < s.left) :
    Onward R E s t.advance t'.advance := by
  by_cases ho : Open t
  · exact .inr ⟨hR.inStep.advance ht ho, hd, hlt⟩
  · exact (hR.leave ht ho).symm.imp_right fun h => ⟨h, hd, hlt⟩

/-- One round of two programs in step. -/
theorem round_parts (hs : R s s') (hd : s.depth = 0) (he : s.input.cur.kind ≠ .eof) :
    ∃ ns es t t', Gains ns es s t ∧ Gains ns es s' t' ∧ Onward R E s t t' := by
  have hl := hR.inStep.left hs
  have hends := hl.ends
  have hends' := (hR.inStep.right hs).ends
  have hcur := hR.inStep.cur hs
  have he' : s'.input.cur.kind ≠ .eof := hcur ▸ he
  have hpos := left_pos_of_cur hends he
  by_cases hk : s.input.cur.kind = .semicolon
  · have hd1 : s.advance.depth = 0 := (depthAfter_other (hk ▸ by decide)).trans hd
    exact ⟨_, _, _, _, .of_semicolon hends hk, .of_semicolon hends' (hcur ▸ hk),
      hR.onward hs hd1 ((Reaches.refl _).left_lt hpos)⟩
  · have hk' : s'.input.cur.kind ≠ .semicolon := hcur ▸ hk
    have hsame := same_statement hR.inStep (sameExpr hR.inStep _) ⟨hs, Nat.lt_succ_self _⟩ hk
    unfold Same at hsame
    generalize hx : statement rule s = r, hx' : statement rule s' = r' at hsame
    cases hsame with
    | ok ht =>
      have hle := ((statement_runs hends).reaches hx).left_le
      refine ⟨_, _, _, _, .of_ok hends he hk hx, .of_ok hends' he' hk' hx', hR.onward ht.rel ?_ ?_⟩
      · exact (statement_depth hl.proper he hx).trans hd
      · rw [advance_left]
        omega
    | abandoned ht =>
      obtain ⟨v, v', hv, hv', htv, htv', hE⟩ := synchronize_parts hR (hR.inStep.record ht)
      have hround := (programRound_of_abandoned hk hx #[]).trans (bind_of_ok hv)
      have hlt := (programRound_shrinks (rule_agree s.bound) #[] s _ _
        ⟨hends, Nat.lt_succ_self _⟩ (by simpa [curIs] using he) hround).2
      refine ⟨_, _, _, _, .of_abandoned hends he hk hx hv htv,
        .of_abandoned hends' he' hk' hx' hv' htv', hE.imp_right fun hR' => ?_⟩
      obtain ⟨hvR, hv0⟩ := hR'
      have hv0' : v'.depth = 0 := hR.inStep.depth hvR ▸ hv0
      rw [resumed_eq hv0, resumed_eq hv0']
      exact ⟨hvR, hv0, hlt⟩
    | stopped hstop => exact absurd (statement_abandoned hl hx) hstop

/-- Programs that cannot be told apart are read alike until they part. -/
theorem programFrom_parts (hs : R s s') (hd : s.depth = 0) : Parts E s s' := by
  induction hn : s.left using Nat.strongRecOn generalizing s s' with
  | _ n ih =>
    by_cases he : s.input.cur.kind = .eof
    · have hE := hR.stop hs he
      have hd' : s'.depth = 0 := hR.inStep.depth hs ▸ hd
      rw [resumed_eq hd, resumed_eq hd'] at hE
      exact .refl hE
    · obtain ⟨ns, es, t, t', ht, ht', hon⟩ := round_parts hR hs hd he
      have hrest : Parts E t t' := by
        rcases hon with hE | ⟨htR, ht0, hlt⟩
        · exact .refl hE
        · exact ih t.left (hn ▸ hlt) htR ht0 rfl
      obtain ⟨ms, fs, v, v', hv, hv', hE⟩ := hrest
      exact ⟨ns ++ ms, es ++ fs, v, v', ht.trans hv, ht'.trans hv', hE⟩

end

/-! ## The two parts of a source -/

/-- The tokens in both states are the same up to a semicolon `c` outside brackets. They end there
in the second state; in the first one the input `behind` is behind it. -/
structure Barrier (c : Token) (behind : TokenStream) (s s' : ParserState) : Prop where
  left : Legible s
  right : Legible s'
  depth : s.depth = s'.depth
  eof : s.input.eof = behind.eof
  ahead : ∃ ts, s.input.tokens = ts ++ c :: behind.tokens ∧ s'.input.tokens = ts ++ [c] ∧
    depthBehind s.depth ts = 0 ∧ ∀ a ∈ ts, a.kind ≠ .eof

/-- The first state is behind the semicolon and the second one is at the end. -/
structure Crossed (behind : TokenStream) (s s' : ParserState) : Prop where
  legible : Legible s
  input : s.input = behind
  depth : s.depth = 0
  eof : s'.input.cur.kind = .eof

section
variable {c : Token} {behind : TokenStream} {s s' : ParserState}

theorem Barrier.cur (h : Barrier c behind s s') : s.input.cur = s'.input.cur := by
  obtain ⟨ts, hts, hts', -⟩ := h.ahead
  cases ts with
  | nil => exact (cur_of_cons hts).trans (cur_of_cons hts').symm
  | cons a as => exact (cur_of_cons hts).trans (cur_of_cons hts').symm

theorem Barrier.advance (hc : c.kind = .semicolon) (h : Barrier c behind s s') :
    Barrier c behind s.advance s'.advance ∨ ¬ Open s ∧ Crossed behind s.advance s'.advance := by
  obtain ⟨ts, hts, hts', hd, heof⟩ := h.ahead
  cases ts with
  | nil =>
    have hs : s.input.cur = c := cur_of_cons hts
    have hd0 : s.depth = 0 := hd
    refine .inr ⟨not_or.mpr ⟨not_not.mpr (hs ▸ hc), not_not.mpr hd0⟩, h.left.advance, ?_, ?_, ?_⟩
    · rw [advance_input, TokenStream.next, hts, h.eof]
      rfl
    · exact (depthAfter_other (hs ▸ hc ▸ by decide)).trans hd0
    · apply cur_of_nil h.right.advance.ends
      rw [advance_input, TokenStream.next_tokens, hts', List.nil_append, List.tail_cons]
  | cons a as =>
    have hs : s.input.cur = a := cur_of_cons hts
    refine .inl ⟨h.left.advance, h.right.advance, ?_, h.eof, as, ?_, ?_, ?_, ?_⟩
    · exact congrArg₂ depthAfter h.depth (congrArg Token.kind h.cur)
    · rw [advance_input, TokenStream.next_tokens, hts, List.cons_append, List.tail_cons]
    · rw [advance_input, TokenStream.next_tokens, hts', List.cons_append, List.tail_cons]
    · rw [← hd, depthBehind_cons, ← hs]
      rfl
    · exact fun b hb => heof b (List.mem_cons_of_mem a hb)

theorem Barrier.ne_eof (hc : c.kind = .semicolon) (h : Barrier c behind s s') :
    s.input.cur.kind ≠ .eof := by
  obtain ⟨ts, hts, -, -, heof⟩ := h.ahead
  cases ts with
  | nil =>
    rw [cur_of_cons hts, hc]
    decide
  | cons a as =>
    rw [cur_of_cons hts]
    exact heof a List.mem_cons_self

/-- Up to the semicolon a source is in step with its first part. -/
theorem parting_barrier (hc : c.kind = .semicolon) :
    Parting (Barrier c behind) (Crossed behind) where
  inStep := {
    left := fun h => h.left
    right := fun h => h.right
    cur := fun h => h.cur
    depth := fun h => h.depth
    peek := fun h ho => by
      rw [← TokenStream.cur_next, ← TokenStream.cur_next]
      exact ((h.advance hc).resolve_right fun hn => hn.1 ho).cur
    advance := fun h ho => (h.advance hc).resolve_right fun hn => hn.1 ho
    record := fun h => ⟨⟨h.left.ends, h.left.readable⟩, ⟨h.right.ends, h.right.readable⟩, h.depth,
      h.eof, h.ahead⟩ }
  stop := fun h he => absurd he (h.ne_eof hc)
  leave := fun h _ => (h.advance hc).imp_right fun hn => hn.2

/-- States that differ in the recorded errors only. -/
structure Alike (s s' : ParserState) : Prop where
  legible : Legible s
  input : s.input = s'.input
  depth : s.depth = s'.depth

theorem Alike.advance (h : Alike s s') : Alike s.advance s'.advance := by
  refine ⟨h.legible.advance, congrArg TokenStream.next h.input, ?_⟩
  exact congrArg₂ depthAfter h.depth (congrArg (fun i => (TokenStream.cur i).kind) h.input)

theorem Alike.right (h : Alike s s') : Legible s' := by
  obtain ⟨⟨hends, hread⟩, hinput, -⟩ := h
  rw [Ends, hinput] at hends
  rw [hinput] at hread
  exact ⟨hends, hread⟩

/-- What is read does not depend on the errors recorded before. -/
theorem parting_alike :
    Parting Alike fun s s' => s.input.cur.kind = .eof ∧ s'.input.cur.kind = .eof where
  inStep := {
    left := fun h => h.legible
    right := fun h => h.right
    cur := fun h => congrArg TokenStream.cur h.input
    depth := fun h => h.depth
    peek := fun h _ => congrArg TokenStream.peek h.input
    advance := fun h _ => h.advance
    record := fun h => ⟨⟨h.legible.ends, h.legible.readable⟩, h.input, h.depth⟩ }
  stop := fun h he => ⟨he, h.input ▸ he⟩
  leave := fun h _ => .inl h.advance

end

/-- Every numeral among the tokens is one, and has no more digits than can be read. -/
def NumeralsReadable (ts : List Token) : Prop :=
  ∀ t ∈ ts, t.kind = .int → t.literal.toList ≠ [] ∧
    (∀ ch ∈ t.literal.toList, isDigit ch = true) ∧ t.literal.length ≤ digitLimit

instance (ts : List Token) : Decidable (NumeralsReadable ts) :=
  inferInstanceAs (Decidable (∀ t ∈ ts, _ → _ ∧ _ ∧ _))

theorem NumeralsReadable.join {ts us : List Token} {c : Token} (ht : NumeralsReadable ts)
    (hc : c.kind ≠ .int) (hu : NumeralsReadable us) : NumeralsReadable (ts ++ c :: us) := by
  intro t hmem hk
  rcases List.mem_append.mp hmem with hmem | hmem
  · exact ht t hmem hk
  · rcases List.mem_cons.mp hmem with rfl | hmem
    · exact absurd hk hc
    · exact hu t hmem hk

theorem legible_stream {input : TokenStream} (heof : input.eof.kind = .eof)
    (h : NumeralsReadable input.tokens) : Legible (ofStream input) := by
  refine ⟨heof, fun t ht hk => ?_⟩
  obtain ⟨hne, hdigits, hlength⟩ := h t ht hk
  exact readable_of_digits hne hdigits (String.length_toList ▸ hlength) hk

section
variable {first rest : List Token} {c eof eof' : Token}

/-- A source with a semicolon at bracket depth zero has the statements and the errors of its part
up to the semicolon and then those of its part behind it, each error at its own token. -/
theorem parseStream_append (hc : c.kind = .semicolon) (heof : eof.kind = .eof)
    (heof' : eof'.kind = .eof) (hd : depthBehind 0 first = 0) (hfirst : ∀ t ∈ first, t.kind ≠ .eof)
    (hread : NumeralsReadable first) (hread' : NumeralsReadable rest) :
    ∃ a b, parseStream ⟨first ++ [c], eof'⟩ = .ok a ∧ parseStream ⟨rest, eof⟩ = .ok b ∧
      parseStream ⟨first ++ c :: rest, eof⟩ = .ok ⟨a.statements ++ b.statements,
        a.errors ++ b.errors⟩ := by
  have hint : c.kind ≠ .int := hc ▸ by decide
  have hl : Legible (ofStream ⟨first ++ c :: rest, eof⟩) :=
    legible_stream heof (hread.join hint hread')
  have hl' : Legible (ofStream ⟨first ++ [c], eof'⟩) :=
    legible_stream heof' (hread.join hint fun _ ht => absurd ht List.not_mem_nil)
  have hbar : Barrier c ⟨rest, eof⟩ (ofStream ⟨first ++ c :: rest, eof⟩)
      (ofStream ⟨first ++ [c], eof'⟩) := ⟨hl, hl', rfl, rfl, first, rfl, rfl, hd, hfirst⟩
  obtain ⟨ns, es, v, v', hns, hns', hv⟩ := programFrom_parts (parting_barrier hc) hbar rfl
  have hw : Alike v (ofStream ⟨rest, eof⟩) := ⟨hv.legible, hv.input, hv.depth⟩
  obtain ⟨ms, fs, w, w', hms, hms', hend, hend'⟩ := programFrom_parts parting_alike hw hv.depth
  refine ⟨⟨ns.toList, es.toList⟩, ⟨ms.toList, fs.toList⟩, ?_, ?_, ?_⟩
  · rw [parseStream_eq heof', hns'.program, programFrom_of_eof hv.eof]
    simp [hns'.errors, ofStream]
  · rw [parseStream_eq heof, hms'.program, programFrom_of_eof hend']
    simp [hms'.errors, ofStream]
  · rw [parseStream_eq heof, (hns.trans hms).program, programFrom_of_eof hend]
    simp [(hns.trans hms).errors, ofStream]

/-- A bracket closed by one of another kind closes it all the same. -/
theorem parseStream_append_mismatched :
    depthBehind 0 ((tokenize "let ( ]; x").tokens.take 3) = 0 ∧
    ∃ a b, parseStream ⟨(tokenize "let ( ]; x").tokens.take 4, (tokenize "").eof⟩ = .ok a ∧
      parseStream ⟨(tokenize "let ( ]; x").tokens.drop 4, (tokenize "let ( ]; x").eof⟩ = .ok b ∧
      parse "let ( ]; x" = .ok ⟨a.statements ++ b.statements, a.errors ++ b.errors⟩ :=
  ⟨by decide, @parseStream_append ((tokenize "let ( ]; x").tokens.take 3)
    ((tokenize "let ( ]; x").tokens.drop 4) ((tokenize "let ( ]; x").get 3) _ _ rfl rfl rfl
    (by decide) (by decide) (by decide) (by decide)⟩

end

end Simian
