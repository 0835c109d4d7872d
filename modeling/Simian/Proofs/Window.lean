import Simian.Proofs.Faults
import Simian.Proofs.Grammar.Balance

/-!
# Rules in any order

The rules of the parser may be called one after another in any order, whether or not one of them
starts with the current token, and also after one was given up. The parser still looks at two
tokens of the source that follow each other, never goes back, and counts the brackets behind it.
Only a program that goes on behind an error sets the count anew, which is the count already unless
the source is at its end.
-/

namespace Simian.Parser

open Text ParserState
set_option autoImplicit false

/-- What can be called of a parser, with what it is given. -/
inductive Method where
  | next
  | expect (k : Kind)
  | synchronize
  | program
  | statement
  | letStatement
  | returnStatement
  | expressionStatement
  | block
  | expression (precedence : Precedence)
  | identifier
  | integer
  | string
  | boolean
  | prefixOp
  | infixOp (left : Node)
  | grouped
  | array
  | conditional
  | function
  | parameters
  | call (callee : Node)
  | index (collection : Node)
  | list (closer : Kind)

def ignored {α : Type} (x : Parser α) : Parser Unit := x >>= fun _ => pure ()

/-- What a method does, its result left out; `expr` is the rule for expressions. -/
def Method.run (expr : ExprRule) : Method → Parser Unit
  | next => Parser.next
  | expect k => Parser.expect k
  | synchronize => Parser.synchronize
  | program => ignored (programStatements expr)
  | statement => ignored (Parser.statement expr)
  | letStatement => ignored (Parser.letStatement expr)
  | returnStatement => ignored (Parser.returnStatement expr)
  | expressionStatement => ignored (Parser.expressionStatement expr)
  | block => ignored (Parser.block expr)
  | expression precedence => ignored (Parser.expression expr precedence)
  | identifier => ignored Parser.identifier
  | integer => ignored integerLiteral
  | string => ignored stringLiteral
  | boolean => ignored booleanLiteral
  | prefixOp => ignored (prefixExpression expr)
  | infixOp left => ignored (infixExpression expr left)
  | grouped => ignored (groupedExpression expr)
  | array => ignored (arrayLiteral expr)
  | conditional => ignored (ifExpression expr)
  | function => ignored (functionLiteral expr)
  | parameters => ignored Parser.parameters
  | call callee => ignored (callExpression expr callee)
  | index collection => ignored (indexExpression expr collection)
  | list closer => ignored (expressionList expr closer)

def Method.perform (m : Method) : Parser Unit := complete fun expr => m.run expr

/-- Only on a numeral the method for numerals may be called. -/
def Permitted (m : Method) (s : ParserState) : Prop := m = .integer → s.input.cur.kind = .int

/-- Permitted calls, one after another, lead from one state to another; each of them returns or is
given up. -/
inductive Leads : List Method → ParserState → ParserState → Prop where
  | nil (s : ParserState) : Leads [] s s
  | returned {m : Method} {ms : List Method} {s t u : ParserState} : Permitted m s →
      m.perform s = .ok () u → Leads ms u t → Leads (m :: ms) s t
  | abandoned {m : Method} {ms : List Method} {s t u : ParserState} : Permitted m s →
      m.perform s = .error .abandoned u → Leads ms u t → Leads (m :: ms) s t

/-- How many tokens of the stream are behind the current one. -/
def place (input : TokenStream) (s : ParserState) : Nat := input.tokens.length - s.left

/-- The parser looks at the tokens at its place in the stream and has counted the brackets of the
tokens before. -/
structure Window (input : TokenStream) (s : ParserState) : Prop where
  rest : s.input = ⟨input.tokens.drop (place input s), input.eof⟩
  cur : s.input.cur = input.get (place input s)
  peek : s.input.peek = input.get (place input s + 1)
  depth : s.depth = depthBehind 0 (input.tokens.take (place input s)) ∨
    s.input.cur.kind = .eof ∧ s.depth = 0

/-- From `s` the parser came to `t`. -/
structure Onward (input : TokenStream) (s t : ParserState) : Prop where
  window : Window input t
  place_le : place input s ≤ place input t
  errors : s.errors.toList <+: t.errors.toList

/-- The current token is a numeral with more digits than can be read. -/
def AtLongNumeral (s : ParserState) : Prop :=
  s.input.cur.kind = .int ∧ digitLimit < s.input.cur.literal.length

/-- How a call of a method in the state `s` can end. -/
inductive Called (input : TokenStream) (s : ParserState) (m : Method) :
    EStateM.Result Stop ParserState Unit → Prop where
  | returned {t : ParserState} : Onward input s t → (m ≠ .program → t.errors = s.errors) →
      Called input s m (.ok () t)
  | abandoned {t : ParserState} {e : SyntaxError} : m ≠ .program → Onward input s t →
      t.errors = s.errors.push e → Called input s m (.error .abandoned t)
  | stopped {t : ParserState} : Onward input s t → (m = .integer → t = s) → AtLongNumeral t →
      Called input s m (.error (.numeral (.tooLong t.input.cur.literal.length)) t)

/-! ## Moving on -/

theorem get_drop (ts : List Token) (eof : Token) (i j : Nat) :
    (TokenStream.mk (ts.drop i) eof).get j = (TokenStream.mk ts eof).get (i + j) := by
  simp [TokenStream.get]

section
variable {input : TokenStream} {s t u : ParserState}

theorem Window.of_append (ts : List Token) (h : input.tokens = ts ++ s.input.tokens)
    (heof : s.input.eof = input.eof)
    (hd : s.depth = depthBehind 0 ts ∨ s.input.cur.kind = .eof ∧ s.depth = 0) :
    Window input s := by
  have hplace : place input s = ts.length := by
    rw [place, h, List.length_append, left, Nat.add_sub_cancel]
  have hrest : s.input = ⟨input.tokens.drop ts.length, input.eof⟩ := by
    rw [h, List.drop_left, ← heof]
  refine ⟨hplace ▸ hrest, ?_, ?_, ?_⟩
  · rw [hplace, hrest]
    exact get_drop input.tokens input.eof ts.length 0
  · rw [hplace, hrest]
    exact get_drop input.tokens input.eof ts.length 1
  · rwa [hplace, h, List.take_left]

theorem Window.exists_append (h : Window input s) : ∃ ts, input.tokens = ts ++ s.input.tokens ∧
    (s.depth = depthBehind 0 ts ∨ s.input.cur.kind = .eof ∧ s.depth = 0) := by
  have hrest : s.input.tokens = input.tokens.drop (place input s) :=
    congrArg TokenStream.tokens h.rest
  exact ⟨input.tokens.take (place input s), by rw [hrest, List.take_append_drop], h.depth⟩

theorem Window.eof_eq (h : Window input s) : s.input.eof = input.eof :=
  (congrArg TokenStream.eof h.rest :)

theorem place_le_of_left_le (h : t.left ≤ s.left) : place input s ≤ place input t :=
  Nat.sub_le_sub_left h _

theorem Onward.refl (h : Window input s) : Onward input s s :=
  ⟨h, Nat.le_refl _, List.prefix_refl _⟩

theorem Onward.trans (h : Onward input s t) (h' : Onward input t u) : Onward input s u :=
  ⟨h'.window, Nat.le_trans h.place_le h'.place_le, h.errors.trans h'.errors⟩

theorem Onward.record (h : Onward input s t) (e : SyntaxError) : Onward input s (t.record e) := by
  refine ⟨⟨h.window.rest, h.window.cur, h.window.peek, h.window.depth⟩, h.place_le, ?_⟩
  change _ <+: (t.errors.push e).toList
  rw [Array.toList_push]
  exact h.errors.trans (List.prefix_append _ _)

/-- Where the count is set anew it was so before, but at the end. -/
theorem Onward.resumed (h : Onward input s t)
    (hlevel : t.input.cur.kind = .eof ∨ t.depth = 0) : Onward input s (resumed t) := by
  refine ⟨⟨h.window.rest, h.window.cur, h.window.peek, ?_⟩, h.place_le, h.errors⟩
  rcases hlevel with he | hd
  · exact .inr ⟨he, rfl⟩
  · exact h.window.depth.imp hd.symm.trans fun hend => ⟨hend.1, rfl⟩

end

/-! ## Sources -/

section
variable {source : String} {s t u : ParserState}

theorem Window.ends (h : Window (tokenize source) s) : s.Ends := by
  rw [Ends, h.eof_eq]
  exact (tokenize_spelled source).1

theorem Window.mem_of_cur (h : Window (tokenize source) s) (hk : s.input.cur.kind ≠ .eof) :
    s.input.cur ∈ (tokenize source).tokens := by
  obtain ⟨ts, hts, -⟩ := h.exists_append
  rw [hts]
  exact List.mem_append_right ts ((Takes.single h.ends hk).isPrefix.subset List.mem_cons_self)

theorem window_ofStream (source : String) :
    Window (tokenize source) (ofStream (tokenize source)) :=
  .of_append [] rfl rfl (.inl rfl)

theorem Window.advance (h : Window (tokenize source) s) : Window (tokenize source) s.advance := by
  obtain ⟨ts, hts, hd⟩ := h.exists_append
  cases hrest : s.input.tokens with
  | nil =>
    -- At the end the parser stays where it is, and the end is no bracket.
    have hcur := cur_of_nil h.ends hrest
    have hdepth : s.advance.depth = s.depth := depthAfter_other (hcur ▸ by decide)
    have hcur' : s.advance.input.cur.kind = .eof :=
      cur_of_nil h.ends.advance (by rw [advance_input, TokenStream.next_tokens, hrest]; rfl)
    refine .of_append ts ?_ h.eof_eq ?_
    · rw [advance_input, TokenStream.next_tokens, hrest, hts, hrest]
      rfl
    · rw [hdepth]
      exact hd.imp_right fun hend => ⟨hcur', hend.2⟩
  | cons a rest =>
    have hcur : s.input.cur = a := cur_of_cons hrest
    have hne : s.input.cur.kind ≠ .eof := by
      refine hcur ▸ ((tokenize_spelled source).2 a ?_).ne_eof
      rw [hts, hrest]
      exact List.mem_append_right ts List.mem_cons_self
    refine .of_append (ts ++ [a]) ?_ h.eof_eq (.inl ?_)
    · rw [advance_input, TokenStream.next_tokens, hts, hrest, List.append_assoc]
      rfl
    · rw [depthBehind_append, ← hd.resolve_right fun hend => hne hend.1, ← hcur]
      rfl

theorem Onward.of_reaches (h : Window (tokenize source) s) (hst : Reaches s t) :
    Onward (tokenize source) s t := by
  refine ⟨?_, place_le_of_left_le hst.left_le, ?_⟩
  · obtain ⟨n, rfl⟩ := hst
    induction n with
    | zero => exact h
    | succ n ih =>
      rw [Function.iterate_succ_apply']
      exact ih.advance
  · exact hst.errors_eq ▸ List.prefix_refl _

theorem Window.long_of_error (h : Window (tokenize source) s) (hk : s.input.cur.kind = .int)
    {fault : NumeralFault} (hf : readInteger s.input.cur.literal.toList = .error fault) :
    AtLongNumeral s ∧ fault = .tooLong s.input.cur.literal.length := by
  rw [readInteger_of_mem (h.mem_of_cur (hk ▸ by decide)) hk] at hf
  split at hf
  · cases hf
  · next hl =>
    cases hf
    exact ⟨⟨hk, Nat.lt_of_not_le hl⟩, rfl⟩

/-! ## Whole programs -/

/-- Recovery ends at the end or outside brackets. -/
theorem synchronize_level (hs : s.Ends) (h : synchronize s = .ok () t) :
    t.input.cur.kind = .eof ∨ t.depth = 0 := by
  induction hn : s.left using Nat.strongRecOn generalizing s with
  | _ n ih =>
    by_cases he : s.input.cur.kind = .eof
    · rw [synchronize_of_eof he] at h
      cases h
      exact .inl he
    · by_cases hk : s.input.cur.kind = .semicolon ∧ s.depth = 0
      · rw [synchronize_of_semicolon hk.1 hk.2] at h
        cases h
        exact .inr ((depthAfter_other (hk.1 ▸ by decide)).trans hk.2)
      · rw [synchronize_of_other hs he fun hk' hd => hk ⟨hk', hd⟩] at h
        have hpos := left_pos_of_cur hs he
        exact ih s.advance.left (by rw [advance_left]; omega) hs.advance h rfl

/-- A round comes further, or it ends at a numeral that cannot be read. -/
theorem round_onward (h : Window (tokenize source) s) (ss : Array Node) :
    (∃ rs u, programRound rule ss s = .ok rs u ∧ Onward (tokenize source) s u) ∨
    ∃ u, programRound rule ss s = .error (.numeral (.tooLong u.input.cur.literal.length)) u ∧
      Onward (tokenize source) s u ∧ AtLongNumeral u := by
  rcases round_cases h.ends ss with ⟨rs, u, hx, hsu⟩ | ⟨u, e, v, hx, hsu, hv, huv⟩ |
    ⟨fault, u, hx, hsu, hint, hf⟩
  · exact .inl ⟨rs, u, hx, .of_reaches h hsu⟩
  · have hu := (Onward.of_reaches h hsu).record e
    exact .inl ⟨ss, resumed v, hx,
      (hu.trans (.of_reaches hu.window huv)).resumed (synchronize_level hu.window.ends hv)⟩
  · have hu := Onward.of_reaches h hsu
    obtain ⟨hlong, rfl⟩ := hu.window.long_of_error hint hf
    exact .inr ⟨u, hx, hu, hlong⟩

theorem Rounds.onward {ss ts : Array Node} (hr : Rounds ss s ts t)
    (h : Window (tokenize source) s) : Onward (tokenize source) s t := by
  induction hr with
  | refl => exact .refl h
  | step _ hx _ ih =>
    rcases round_onward h _ with ⟨_, _, hx', hu⟩ | ⟨_, hx', -⟩
    · cases hx.symm.trans hx'
      exact hu.trans (ih hu.window)
    · cases hx.symm.trans hx'

theorem programFrom_onward (h : Window (tokenize source) s) (ss : Array Node) :
    (∃ ts t, programFrom ss s = .ok ts t ∧ Onward (tokenize source) s t) ∨
    ∃ t, programFrom ss s = .error (.numeral (.tooLong t.input.cur.literal.length)) t ∧
      Onward (tokenize source) s t ∧ AtLongNumeral t := by
  obtain ⟨ts, t, hrounds, hx | ⟨fault, u, hround, hx⟩⟩ := programFrom_rounds h.ends ss
  · exact .inl ⟨ts, t, hx, hrounds.onward h⟩
  · have ht := hrounds.onward h
    rcases round_onward ht.window ts with ⟨_, _, hx', -⟩ | ⟨v, hx', hv, hlong⟩
    · cases hround.symm.trans hx'
    · cases hround.symm.trans hx'
      exact .inr ⟨u, hx, ht.trans hv, hlong⟩

/-! ## Calls -/

theorem Runs.ignored {α : Type} {x y : Parser α} (h : Runs s x y) :
    Runs s (ignored x) (ignored y) := h.map fun _ => ()

theorem Runs.synchronize (hs : s.Ends) : Runs s synchronize synchronize := by
  obtain ⟨t, ht, hst, -⟩ := synchronize_ends hs
  exact ⟨rfl, ht ▸ .ok hst⟩

theorem Method.runs {m : Method} (hs : s.Ends) (hp : Permitted m s) (hm : m ≠ .program) :
    Runs s m.perform m.perform := by
  have h := expressionUpTo_agree (Nat.le_refl s.bound)
  have hf : Fits s.bound s := ⟨hs, Nat.lt_succ_self _⟩
  suffices hr : Runs s (m.run (expressionUpTo s.bound)) (m.run (expressionUpTo s.bound)) from
    ⟨rfl, hr.outcome⟩
  cases m with
  | next => exact .next
  | expect k => exact .expect k
  | synchronize => exact .synchronize hs
  | program => exact absurd rfl hm
  | statement => exact (Runs.statement h hf).ignored
  | letStatement => exact (Runs.letStatement h hf).ignored
  | returnStatement => exact (Runs.returnStatement h hf).ignored
  | expressionStatement => exact (Runs.expressionStatement h hf).ignored
  | block => exact (Runs.block h hf.advance).ignored
  | expression p => exact (Runs.expression h ⟨hs, Nat.lt_succ_of_lt hf.left_lt⟩ p).ignored
  | identifier => exact (Runs.cur_bind (.pure _)).ignored
  | integer => exact (Runs.integerLiteral (hp rfl)).ignored
  | string => exact (Runs.cur_bind (.pure _)).ignored
  | boolean => exact (Runs.cur_bind (.pure _)).ignored
  | prefixOp => exact (Runs.prefixExpression h hf.advance).ignored
  | infixOp left => exact (Runs.infixExpression h hf.advance left).ignored
  | grouped => exact (Runs.groupedExpression h hf.advance).ignored
  | array => exact (Runs.arrayLiteral h hf.advance).ignored
  | conditional => exact (Runs.ifExpression h hf.advance).ignored
  | function => exact (Runs.functionLiteral h hf.advance).ignored
  | parameters => exact (Runs.parameters hs).ignored
  | call callee => exact (Runs.callExpression h hf.advance callee).ignored
  | index collection => exact (Runs.indexExpression h hf.advance collection).ignored
  | list closer => exact (Runs.expressionList h hf.advance closer).ignored

theorem called_of_outcome {m : Method} {r : EStateM.Result Stop ParserState Unit}
    (h : Window (tokenize source) s) (ho : Outcome s r) (hm : m ≠ .program)
    (hstop : ∀ stop t, r = .error stop t → stop ≠ .abandoned → m = .integer → t = s) :
    Called (tokenize source) s m r := by
  cases ho with
  | ok hst => exact .returned (.of_reaches h hst) fun _ => hst.errors_eq
  | @abandoned t e hst _ =>
    exact .abandoned hm ((Onward.of_reaches h hst).record e)
      (congrArg (Array.push · e) hst.errors_eq)
  | @numeral t fault hst hk hf =>
    have ht := Onward.of_reaches h hst
    obtain ⟨hlong, rfl⟩ := ht.window.long_of_error hk hf
    exact .stopped ht (hstop _ _ rfl (by simp)) hlong

/-- A numeral that cannot be read is met without a move. -/
theorem integerLiteral_stays {stop : Stop} (h : ignored integerLiteral s = .error stop t)
    (hs : stop ≠ .abandoned) : t = s := by
  cases hr : readInteger s.input.cur.literal.toList with
  | ok n =>
    by_cases hn : n ≤ Int64.max
    · rw [ignored, bind_of_ok (integerLiteral_of_le hr hn)] at h
      cases h
    · have hx := integerLiteral_of_lt hr (Int.not_le.mp hn)
      rw [ignored, bind_of_error (hx.trans rfl)] at h
      cases h
      exact absurd rfl hs
  | error fault =>
    rw [ignored, bind_of_error (integerLiteral_of_error hr)] at h
    cases h
    rfl

theorem perform_program (hs : s.Ends) :
    Method.program.perform s = ignored (programFrom #[]) s := by
  have hc := programStatements_congr (expressionUpTo_agree_rule s.bound)
    ⟨hs, Nat.lt_succ_self _⟩
  have hrule : ignored (programStatements rule) = ignored (programFrom #[]) :=
    bind_assoc (programFrom #[]) (fun ss => pure ss.toList) fun _ => pure ()
  rw [← hrule]
  exact bind_congr_at hc

theorem called_program (h : Window (tokenize source) s) :
    Called (tokenize source) s .program (Method.program.perform s) := by
  rw [perform_program h.ends]
  rcases programFrom_onward h #[] with ⟨ts, t, hx, ht⟩ | ⟨t, hx, ht, hlong⟩
  · rw [ignored, bind_of_ok hx]
    exact .returned ht fun hm => absurd rfl hm
  · rw [ignored, bind_of_error hx]
    exact .stopped ht (fun hm => nomatch hm) hlong

theorem Method.called {m : Method} (h : Window (tokenize source) s) (hp : Permitted m s) :
    Called (tokenize source) s m (m.perform s) := by
  by_cases hm : m = .program
  · subst hm
    exact called_program h
  · refine called_of_outcome h (Method.runs h.ends hp hm).outcome hm fun stop t ht hs hi => ?_
    subst hi
    exact integerLiteral_stays ht hs

theorem Leads.onward {ms : List Method} (h : Leads ms s t) (hs : Window (tokenize source) s) :
    Onward (tokenize source) s t := by
  induction h with
  | nil => exact .refl hs
  | returned hp hx _ ih =>
    have hc := Method.called hs hp
    rw [hx] at hc
    cases hc with
    | returned hu _ => exact hu.trans (ih hu.window)
  | abandoned hp hx _ ih =>
    have hc := Method.called hs hp
    rw [hx] at hc
    cases hc with
    | abandoned _ hu _ => exact hu.trans (ih hu.window)

/-- Wherever calls have led, the parser looks at two tokens of the source that follow each other,
and whatever is called next ends as a call may end. -/
theorem window_kept (source : String) (ms : List Method)
    (h : Leads ms (ofStream (tokenize source)) s) :
    Onward (tokenize source) (ofStream (tokenize source)) s ∧
      ∀ m, Permitted m s → Called (tokenize source) s m (m.perform s) :=
  have honward := h.onward (window_ofStream source)
  ⟨honward, fun _ hp => Method.called honward.window hp⟩

/-- A bracket before a statement that is given up is counted, and counted no more at the end. -/
theorem window_kept_unclosed : ∃ s, Leads [.letStatement, .next, .program]
      (ofStream (tokenize "( let")) s ∧
    place (tokenize "( let") s = 2 ∧ s.errors.size = 2 ∧ s.depth = 0 ∧
    depthBehind 0 ((tokenize "( let").tokens.take 2) = 1 ∧ Window (tokenize "( let") s ∧
    Called (tokenize "( let") s (.list .eof) (Method.perform (.list .eof) s) := by
  have h : Leads [.letStatement, .next, .program] (ofStream (tokenize "( let")) _ :=
    .abandoned (fun hm => nomatch hm) rfl
      (.returned (fun hm => nomatch hm) rfl (.returned (fun hm => nomatch hm) rfl (.nil _)))
  have hk := window_kept "( let" _ h
  exact ⟨_, h, rfl, rfl, rfl, rfl, hk.1.window, hk.2 _ fun hm => nomatch hm⟩

end

end Simian.Parser
