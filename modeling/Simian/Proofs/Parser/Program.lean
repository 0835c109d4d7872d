import Simian.Proofs.Parser.Nesting

/-!
# Whole programs

A program is read round by round. A statement with a syntax error is given up, and reading goes on
behind the next semicolon outside brackets. Every round takes a token, so a program is read to its
end, and the reading from any state is an equation in the statement rule and in `synchronize`.
-/

namespace Simian.Parser

open ParserState
set_option autoImplicit false

/-! ## Recovery -/

section
variable {s : ParserState}

/-- Whether recovery goes on: neither the end nor a semicolon outside brackets is reached. -/
def skipping (s : ParserState) : Bool :=
  !s.curIs .eof && !(s.curIs .semicolon && s.depth == 0)

def resume : Parser Unit := fun s => if s.curIs .eof then .ok () s else next s

theorem synchronize_eq (s : ParserState) :
    synchronize s = (loop skipping (fun _ => next) () >>= fun _ => resume) s := rfl

theorem skipping_shrinks : Shrinks Ends skipping (fun _ : Unit => next) := by
  intro _ s _ t hs ha hx
  obtain rfl : s.advance = t := by simpa using hx
  have hk : s.input.cur.kind ≠ .eof := by
    intro hk
    simp [skipping, curIs, hk] at ha
  exact ⟨hs.advance, (Reaches.refl _).left_lt (left_pos_of_cur hs hk)⟩

theorem synchronize_of_eof (h : s.input.cur.kind = .eof) : synchronize s = .ok () s := by
  have hn : skipping s = false := by simp [skipping, curIs, h]
  rw [synchronize_eq, bind_of_ok (loop_of_not_again hn)]
  simp [resume, curIs, h]

theorem synchronize_of_semicolon (h : s.input.cur.kind = .semicolon) (hd : s.depth = 0) :
    synchronize s = .ok () s.advance := by
  have hn : skipping s = false := by simp [skipping, curIs, h, hd]
  rw [synchronize_eq, bind_of_ok (loop_of_not_again hn)]
  simp [resume, curIs, h]

theorem synchronize_of_other (hs : s.Ends) (he : s.input.cur.kind ≠ .eof)
    (h : s.input.cur.kind = .semicolon → s.depth ≠ 0) : synchronize s = synchronize s.advance := by
  have ha : skipping s = true := by
    simp only [skipping, curIs, Bool.and_eq_true, Bool.not_eq_true', beq_eq_false_iff_ne, ne_eq,
      Bool.and_eq_false_iff]
    refine ⟨he, ?_⟩
    by_cases hk : s.input.cur.kind = .semicolon
    · exact Or.inr (h hk)
    · exact Or.inl hk
  rw [synchronize_eq, synchronize_eq]
  have hl := loop_of_again skipping_shrinks hs ha ()
  rw [next_bind] at hl
  cases hx : loop skipping (fun _ => next) () s.advance with
  | ok a t => rw [bind_of_ok (hl.trans hx), bind_of_ok hx]
  | error stop t => rw [bind_of_error (hl.trans hx), bind_of_error hx]

/-- Recovery always ends, somewhere ahead, and takes something unless it starts at the end. -/
theorem synchronize_ends (hs : s.Ends) : ∃ t, synchronize s = .ok () t ∧ Reaches s t ∧
    (s.input.cur.kind ≠ .eof → t.left < s.left) := by
  induction hn : s.left using Nat.strongRecOn generalizing s with
  | _ n ih =>
    by_cases he : s.input.cur.kind = .eof
    · exact ⟨s, synchronize_of_eof he, .refl s, fun h => absurd he h⟩
    · have hpos := left_pos_of_cur hs he
      by_cases hk : s.input.cur.kind = .semicolon ∧ s.depth = 0
      · refine ⟨s.advance, synchronize_of_semicolon hk.1 hk.2, .step s, fun _ => ?_⟩
        exact hn ▸ (Reaches.refl _).left_lt hpos
      · obtain ⟨t, ht, hst, _⟩ := ih s.advance.left (by rw [advance_left]; omega) hs.advance rfl
        rw [synchronize_of_other hs he fun hk' hd => hk ⟨hk', hd⟩]
        exact ⟨t, ht, hst.of_advance, fun _ => hn ▸ hst.left_lt hpos⟩

end

/-- The state in which reading goes on behind a statement that was given up. -/
def resumed (s : ParserState) : ParserState := { s with depth := 0 }

/-- A rule that is given up has moved and recorded one error, about the current token or the next
one. -/
theorem abandoned_reaches {α : Type} {s t : ParserState} {x y : Parser α} (h : Runs s x y)
    (hx : x s = .error .abandoned t) :
    ∃ u e, Reaches s u ∧ (e.token = u.input.cur ∨ e.token = u.input.peek) ∧ t = u.record e := by
  have ho := h.outcome
  rw [hx] at ho
  cases ho with
  | abandoned hr hb => exact ⟨_, _, hr, hb, rfl⟩

theorem record_inj {s t : ParserState} {e f : SyntaxError} (h : s.record e = t.record f) :
    s = t ∧ e = f := by
  have hinput : (s.record e).input = (t.record f).input := congrArg ParserState.input h
  have hdepth : (s.record e).depth = (t.record f).depth := congrArg ParserState.depth h
  have herrors : s.errors.push e = t.errors.push f := congrArg ParserState.errors h
  obtain ⟨he, hes⟩ := Array.push_eq_push.mp herrors
  cases s
  cases t
  cases hinput
  cases hdepth
  cases hes
  exact ⟨rfl, he⟩

theorem resumed_errors {s u v : ParserState} {e : SyntaxError} (hsu : Reaches s u)
    (huv : Reaches (u.record e) v) : (resumed v).errors = s.errors.push e := by
  rw [← hsu.errors_eq]
  exact huv.errors_eq

theorem reaches_eq_or_advance {s t : ParserState} (h : Reaches s t) :
    t = s ∨ Reaches s.advance t := by
  obtain ⟨n, rfl⟩ := h
  cases n with
  | zero => exact .inl rfl
  | succ n => exact .inr ⟨n, rfl⟩

/-! ## Rounds -/

theorem programRound_shrinks {n : Nat} {e e' : ExprRule} (h : Agree n e e') :
    Shrinks (Fits n) (fun s => !s.curIs .eof) (programRound e) := by
  intro ss s ts t hs ha hx
  have he : s.input.cur.kind ≠ .eof := by simpa [curIs] using ha
  have hpos := left_pos_of_cur hs.ends he
  have hr := Runs.statement h hs
  by_cases hk : s.input.cur.kind = .semicolon
  · rw [programRound_of_semicolon hk] at hx
    cases hx
    exact ⟨hs.advance, (Reaches.refl _).left_lt hpos⟩
  · cases hst : statement e s with
    | ok m u =>
      rw [programRound_of_ok hk hst] at hx
      cases hx
      have hu := hr.reaches hst
      have hle := hu.left_le
      refine ⟨(hs.of_reaches hu).advance, ?_⟩
      rw [advance_left]
      omega
    | error stop u =>
      by_cases hstop : stop = .abandoned
      · subst hstop
        obtain ⟨v, err, hv, -, rfl⟩ := abandoned_reaches hr hst
        obtain ⟨w, hw, hvw, hlt⟩ := synchronize_ends (s := v.record err) (hv.ends hs.ends)
        rw [programRound_of_abandoned hk hst, bind_of_ok hw] at hx
        cases hx
        have hle : w.left ≤ v.left := hvw.left_le
        have hws : w.left ≤ s.left := Nat.le_trans hle hv.left_le
        refine ⟨⟨hvw.ends (hv.ends hs.ends), Nat.lt_of_le_of_lt hws hs.left_lt⟩, ?_⟩
        change w.left < s.left
        -- A statement given up where it started is left behind by the recovery itself.
        rcases reaches_eq_or_advance hv with rfl | hv
        · exact hlt he
        · exact Nat.lt_of_le_of_lt hle (hv.left_lt hpos)
      · rw [programRound_of_stopped hk hst hstop] at hx
        cases hx

theorem programStatements_congr {n : Nat} {e e' : ExprRule} (h : Agree n e e') {s : ParserState}
    (hs : Fits n s) : programStatements e s = programStatements e' s := by
  have hl : loop (fun s => !s.curIs .eof) (programRound e) #[] s =
      loop (fun s => !s.curIs .eof) (programRound e') #[] s := by
    refine loop_congr (programRound_shrinks h) hs (fun ss t ht _ => ?_) _
    have hr := Runs.statement h ht
    by_cases hk : t.input.cur.kind = .semicolon
    · rw [programRound_of_semicolon hk, programRound_of_semicolon hk]
    · cases hst : statement e t with
      | ok m u => rw [programRound_of_ok hk hst, programRound_of_ok hk (hr.eq ▸ hst)]
      | error stop u =>
        by_cases hstop : stop = .abandoned
        · subst hstop
          rw [programRound_of_abandoned hk hst, programRound_of_abandoned hk (hr.eq ▸ hst)]
        · rw [programRound_of_stopped hk hst hstop, programRound_of_stopped hk (hr.eq ▸ hst) hstop]
  change (loop _ (programRound e) #[] >>= _) s = (loop _ (programRound e') #[] >>= _) s
  cases hx : loop (fun s => !s.curIs .eof) (programRound e') #[] s with
  | ok ss t => rw [bind_of_ok (hl.trans hx), bind_of_ok hx]
  | error stop t => rw [bind_of_error (hl.trans hx), bind_of_error hx]

def programFrom (ss : Array Node) : Parser (Array Node) :=
  loop (fun s => !s.curIs .eof) (programRound rule) ss

section
variable {s t u : ParserState} {ss : Array Node}

theorem programFrom_of_eof (h : s.input.cur.kind = .eof) : programFrom ss s = .ok ss s :=
  loop_of_not_again (by simp [curIs, h])

variable (hs : s.Ends)
include hs

theorem programFrom_of_round {ts : Array Node} (he : s.input.cur.kind ≠ .eof)
    (h : programRound rule ss s = .ok ts t) : programFrom ss s = programFrom ts t := by
  unfold programFrom
  rw [loop_of_again (.of_fits fun n => programRound_shrinks (rule_agree n)) hs
    (by simpa [curIs] using he), bind_of_ok h]

theorem programFrom_of_semicolon (h : s.input.cur.kind = .semicolon) :
    programFrom ss s = programFrom ss s.advance :=
  programFrom_of_round hs (by simp [h]) (programRound_of_semicolon h ss)

variable (he : s.input.cur.kind ≠ .eof) (hk : s.input.cur.kind ≠ .semicolon)
include he hk

theorem programFrom_of_ok {n : Node} (h : statement rule s = .ok n t) :
    programFrom ss s = programFrom (ss.push n) t.advance :=
  programFrom_of_round hs he (programRound_of_ok hk h ss)

theorem programFrom_of_abandoned (h : statement rule s = .error .abandoned t)
    (hu : synchronize t = .ok () u) : programFrom ss s = programFrom ss (resumed u) :=
  programFrom_of_round hs he ((programRound_of_abandoned hk h ss).trans (bind_of_ok hu))

end

/-- What holds at the end of a program, and before each round if behind it, holds at the start. -/
theorem programFrom_induction {s t : ParserState} {ss ts : Array Node}
    {motive : Array Node → ParserState → Prop}
    (stop : t.input.cur.kind = .eof → motive ts t)
    (semicolon : ∀ ss s, s.Ends → s.input.cur.kind = .semicolon → motive ss s.advance →
      motive ss s)
    (ok : ∀ ss s n u, s.Ends → s.input.cur.kind ≠ .eof → s.input.cur.kind ≠ .semicolon →
      statement rule s = .ok n u → motive (ss.push n) u.advance → motive ss s)
    (abandoned : ∀ ss s u e v, s.Ends → s.input.cur.kind ≠ .eof →
      s.input.cur.kind ≠ .semicolon → statement rule s = .error .abandoned (u.record e) →
      Reaches s u → synchronize (u.record e) = .ok () v → Reaches (u.record e) v →
      programFrom ss (resumed v) = .ok ts t → motive ss (resumed v) → motive ss s)
    (hs : s.Ends) (h : programFrom ss s = .ok ts t) : motive ss s := by
  refine loop_induction (.of_fits fun n => programRound_shrinks (rule_agree n))
    (fun _ ha => stop (by simpa [curIs] using ha)) (fun ss s ss' s' hs ha hx _ hl ih => ?_) hs h
  have he : s.input.cur.kind ≠ .eof := by simpa [curIs] using ha
  by_cases hk : s.input.cur.kind = .semicolon
  · rw [programRound_of_semicolon hk] at hx
    cases hx
    exact semicolon ss s hs hk ih
  · cases hst : statement rule s with
    | ok n u =>
      rw [programRound_of_ok hk hst] at hx
      cases hx
      exact ok ss s n u hs he hk hst ih
    | error st u =>
      by_cases hstop : st = .abandoned
      · subst hstop
        obtain ⟨v, err, hv, -, rfl⟩ := abandoned_reaches (statement_runs hs) hst
        obtain ⟨w, hw, hvw, -⟩ := synchronize_ends (s := v.record err) (hv.ends hs)
        rw [programRound_of_abandoned hk hst, bind_of_ok hw] at hx
        cases hx
        exact abandoned ss s v err w hs he hk hst hv hw hvw hl ih
      · rw [programRound_of_stopped hk hst hstop] at hx
        cases hx

theorem parseStream_eq {input : TokenStream} (h : input.eof.kind = .eof) :
    parseStream input =
      match programFrom #[] (ofStream input) with
      | .ok ss s => .ok ⟨ss.toList, s.errors.toList⟩
      | .error stop _ => .error stop := by
  have hc : complete programStatements (ofStream input) =
      programStatements rule (ofStream input) :=
    programStatements_congr (expressionUpTo_agree_rule _) ⟨h, Nat.lt_succ_self _⟩
  have hp : programStatements rule = programFrom #[] >>= fun ss => pure ss.toList := rfl
  rw [parseStream, hc, hp]
  cases hx : programFrom #[] (ofStream input) with
  | ok ss s => rw [bind_of_ok hx]; rfl
  | error stop s => rw [bind_of_error hx]

theorem parseStream_eq_ok_iff {input : TokenStream} (h : input.eof.kind = .eof) {parsed : Parsed} :
    parseStream input = .ok parsed ↔ ∃ ss t, programFrom #[] (ofStream input) = .ok ss t ∧
      parsed = ⟨ss.toList, t.errors.toList⟩ := by
  rw [parseStream_eq h]
  cases hx : programFrom #[] (ofStream input) with
  | ok ss t =>
    constructor
    · intro heq
      exact ⟨ss, t, rfl, (Except.ok.inj heq).symm⟩
    · rintro ⟨_, _, heq, rfl⟩
      cases heq
      rfl
  | error stop t => simp

end Simian.Parser
