import Simian.Proofs.Grammar.Exact
import Simian.Proofs.Parser.Starts
import Simian.Proofs.Segmentation
import Simian.Session

/-!
# Syntax errors are recorded

Whatever a source is like, reading it returns its statements and its errors, a strict reading
refuses it for its errors only, and a session goes on behind a line with errors. There is one
exception: a numeral with more digits than can be read ends them all, where one above the greatest
integer is an error like others.
-/

namespace Simian.Parser

open Text ParserState Grammar
set_option autoImplicit false

section
variable {s t u v : ParserState} {ss ts : Array Node}

/-! ## Rounds -/

/-- Reading a program comes from the statements `ss` in the state `s` to `ts` in `t`, where the next
statement may begin. -/
inductive Rounds : Array Node → ParserState → Array Node → ParserState → Prop where
  | refl (ss : Array Node) (s : ParserState) : Rounds ss s ss s
  | step {ss rs ts : Array Node} {s u t : ParserState} : s.input.cur.kind ≠ .eof →
      programRound rule ss s = .ok rs u → Rounds rs u ts t → Rounds ss s ts t

theorem round_ends {rs : Array Node} (hs : s.Ends) (he : s.input.cur.kind ≠ .eof)
    (h : programRound rule ss s = .ok rs u) : u.Ends ∧ u.left < s.left :=
  Shrinks.of_fits (fun n => programRound_shrinks (rule_agree n)) ss s rs u hs
    (by simpa [curIs] using he) h

theorem Rounds.programFrom_eq (h : Rounds ss s ts t) (hs : s.Ends) :
    t.Ends ∧ programFrom ss s = programFrom ts t := by
  induction h with
  | refl => exact ⟨hs, rfl⟩
  | step he hx _ ih =>
    obtain ⟨ht, heq⟩ := ih (round_ends hs he hx).1
    exact ⟨ht, (programFrom_of_round hs he hx).trans heq⟩

theorem programFrom_of_stopped {stop : Stop} (hs : s.Ends) (he : s.input.cur.kind ≠ .eof)
    (h : programRound rule ss s = .error stop u) : programFrom ss s = .error stop u := by
  unfold programFrom
  rw [loop_of_again (.of_fits fun n => programRound_shrinks (rule_agree n)) hs
    (by simpa [curIs] using he), bind_of_error h]

/-- A numeral among the tokens that cannot be read. -/
def Unreadable (s : ParserState) (fault : NumeralFault) : Prop :=
  ∃ a ∈ s.input.tokens, a.kind = .int ∧ readInteger a.literal.toList = .error fault

/-- A round moves on and records nothing, or it gives a statement up and recovers, or it ends at a
numeral that cannot be read. -/
theorem round_cases (hs : s.Ends) (ss : Array Node) :
    (∃ rs u, programRound rule ss s = .ok rs u ∧ Reaches s u) ∨
    (∃ u e v, programRound rule ss s = .ok ss (resumed v) ∧ Reaches s u ∧
      synchronize (u.record e) = .ok () v ∧ Reaches (u.record e) v) ∨
    ∃ fault u, programRound rule ss s = .error (.numeral fault) u ∧ Reaches s u ∧
      u.input.cur.kind = .int ∧ readInteger u.input.cur.literal.toList = .error fault := by
  by_cases hk : s.input.cur.kind = .semicolon
  · exact .inl ⟨_, _, programRound_of_semicolon hk ss, .step s⟩
  · have ho := (statement_runs hs).outcome
    generalize hx : statement rule s = r at ho
    cases ho with
    | ok hsu => exact .inl ⟨_, _, programRound_of_ok hk hx ss, hsu.trans (.step _)⟩
    | @abandoned u e hsu _ =>
      obtain ⟨v, hv, huv, -⟩ := synchronize_ends (s := u.record e) (hsu.ends hs)
      refine .inr (.inl ⟨u, e, v, ?_, hsu, hv, huv⟩)
      rw [programRound_of_abandoned hk hx, bind_of_ok hv]
      rfl
    | @numeral u fault hsu hint hf =>
      exact .inr (.inr ⟨fault, u, programRound_of_stopped hk hx (by simp) ss, hsu, hint, hf⟩)

/-- A round goes on further behind, or it ends at a numeral that cannot be read. -/
theorem round_outcome (hs : s.Ends) (ss : Array Node) :
    (∃ rs u, programRound rule ss s = .ok rs u ∧ u.input.tokens <:+ s.input.tokens) ∨
    ∃ fault u, programRound rule ss s = .error (.numeral fault) u ∧ Unreadable s fault := by
  rcases round_cases hs ss with ⟨rs, u, hx, hsu⟩ | ⟨u, e, v, hx, hsu, -, huv⟩ |
    ⟨fault, u, hx, hsu, hint, hf⟩
  · exact .inl ⟨rs, u, hx, hsu.input_suffix⟩
  · exact .inl ⟨ss, resumed v, hx, huv.input_suffix.trans hsu.input_suffix⟩
  · have hmem := (Takes.of_cur (hsu.ends hs) hint (by decide)).subset List.mem_cons_self
    exact .inr ⟨fault, u, hx, _, hsu.input_suffix.subset hmem, hint, hf⟩

theorem Rounds.suffix (h : Rounds ss s ts t) (hs : s.Ends) :
    t.input.tokens <:+ s.input.tokens := by
  induction h with
  | refl => exact List.suffix_refl _
  | step he hx _ ih =>
    have hu := (round_ends hs he hx).1
    rcases round_outcome hs _ with ⟨rs, u, hx', hsuffix⟩ | ⟨_, _, hx', -⟩
    · rw [hx] at hx'
      cases hx'
      exact (ih hu).trans hsuffix
    · rw [hx] at hx'
      cases hx'

/-- A program is read round by round to its end, or to a round that ends at a numeral that cannot
be read. -/
theorem programFrom_rounds (hs : s.Ends) (ss : Array Node) : ∃ ts t, Rounds ss s ts t ∧
    (programFrom ss s = .ok ts t ∨
    ∃ fault u, programRound rule ts t = .error (.numeral fault) u ∧
      programFrom ss s = .error (.numeral fault) u) := by
  induction hn : s.left using Nat.strongRecOn generalizing s ss with
  | _ n ih =>
    by_cases he : s.input.cur.kind = .eof
    · exact ⟨ss, s, .refl ss s, .inl (programFrom_of_eof he)⟩
    · rcases round_outcome hs ss with ⟨rs, u, hx, -⟩ | ⟨fault, u, hx, -⟩
      · obtain ⟨hu, hlt⟩ := round_ends hs he hx
        rw [programFrom_of_round hs he hx]
        obtain ⟨ts, t, hrounds, hend⟩ := ih u.left (hn ▸ hlt) hu rs rfl
        exact ⟨ts, t, .step he hx hrounds, hend⟩
      · exact ⟨ss, s, .refl ss s, .inr ⟨fault, u, hx, programFrom_of_stopped hs he hx⟩⟩

/-- A program is read to its end, or to a numeral that cannot be read. -/
theorem programFrom_outcome (hs : s.Ends) (ss : Array Node) :
    (∃ ts t, programFrom ss s = .ok ts t) ∨
    ∃ fault u, programFrom ss s = .error (.numeral fault) u ∧ Unreadable s fault := by
  obtain ⟨ts, t, hrounds, hx | ⟨fault, u, hround, hx⟩⟩ := programFrom_rounds hs ss
  · exact .inl ⟨ts, t, hx⟩
  · rcases round_outcome (hrounds.programFrom_eq hs).1 ts with ⟨_, _, hx', -⟩ | ⟨_, _, hx', hf⟩
    · cases hround.symm.trans hx'
    · cases hround.symm.trans hx'
      obtain ⟨a, ha, hfault⟩ := hf
      exact .inr ⟨fault, u, hx, a, (hrounds.suffix hs).subset ha, hfault⟩

/-- Recorded errors stay. -/
theorem programFrom_errors (hs : s.Ends) (h : programFrom ss s = .ok ts t) :
    s.errors.toList <+: t.errors.toList := by
  refine programFrom_induction (motive := fun _ s => s.errors.toList <+: t.errors.toList)
    (fun _ => List.prefix_refl _) (fun _ _ _ _ ih => ih) ?_ ?_ hs h
  · intro _ s n u hends _ _ hx ih
    rwa [advance_errors, ((statement_runs hends).reaches hx).errors_eq] at ih
  · intro _ s u e v _ _ _ _ hsu _ huv _ ih
    rw [resumed_errors hsu huv, Array.toList_push] at ih
    exact (List.prefix_append _ _).trans ih

/-! ## A numeral where an expression starts -/

variable (hs : s.Ends) (he : s.input.cur.kind ≠ .eof) (hk : s.input.cur.kind ≠ .semicolon)
  (h : StartsExpression s u) (hint : u.input.cur.kind = .int)
include hs he hk h hint

/-- A statement with a numeral beyond the range of integers is given up for it, and reading goes on
behind the statement. -/
theorem round_of_lt {n : Int} (hn : readInteger u.input.cur.literal.toList = .ok n)
    (hlt : Int64.max < n) (ss : Array Node) :
    statement rule s = .error .abandoned (u.record ⟨.integerRange, u.input.cur⟩) ∧
    ∃ v, synchronize (u.record ⟨.integerRange, u.input.cur⟩) = .ok () v ∧
      programRound rule ss s = .ok ss (resumed v) ∧
      ∀ ts t, programFrom ss s = .ok ts t → ⟨.integerRange, u.input.cur⟩ ∈ t.errors.toList := by
  have hx := h.statement_eq hs fun _ _ => expression_of_lt hint hn hlt
  have hu : (u.record ⟨.integerRange, u.input.cur⟩).Ends := (h.reaches hs).ends hs
  obtain ⟨v, hv, huv, -⟩ := synchronize_ends hu
  have hround : programRound rule ss s = .ok ss (resumed v) := by
    rw [programRound_of_abandoned hk hx, bind_of_ok hv]
    rfl
  refine ⟨hx, v, hv, hround, fun ts t ht => ?_⟩
  rw [programFrom_of_round hs he hround] at ht
  apply (programFrom_errors (round_ends hs he hround).1 ht).subset
  rw [resumed_errors (h.reaches hs) huv, Array.toList_push]
  exact List.mem_append_right _ List.mem_cons_self

/-- A numeral that cannot be read ends the reading of the program. -/
theorem programFrom_of_unreadable {fault : NumeralFault}
    (hf : readInteger u.input.cur.literal.toList = .error fault) (ss : Array Node) :
    programFrom ss s = .error (.numeral fault) u := by
  have hx := h.statement_eq hs fun _ _ => expression_of_error hint hf
  exact programFrom_of_stopped hs he (programRound_of_stopped hk hx (by simp) ss)

end

end Simian.Parser

namespace Simian

open Text Simian.Parser ParserState Grammar
set_option autoImplicit false

/-! ## Sources -/

theorem readInteger_of_mem {source : String} {t : Token} (ht : t ∈ (tokenize source).tokens)
    (hk : t.kind = .int) : readInteger t.literal.toList =
      if t.literal.length ≤ digitLimit then .ok (numeralValue t)
      else .error (.tooLong t.literal.length) := by
  obtain ⟨hne, hdigits⟩ := ((tokenize_spelled source).2 t ht).int hk
  rw [← String.length_toList]
  split
  · next hl => exact readInteger_of_digits hne hdigits hl
  · next hl => exact readInteger_of_tooLong hdigits (Nat.lt_of_not_le hl)

/-- The stop at a numeral of the source that has more digits than can be read. -/
def StopsTooLong (source : String) (stop : Stop) : Prop :=
  ∃ t ∈ (tokenize source).tokens, t.kind = .int ∧ digitLimit < t.literal.length ∧
    stop = .numeral (.tooLong t.literal.length)

/-- While the source is read, a statement begins in the state `s`, behind the statements `ss`, and
in it an expression in the state `u`. -/
structure Meets (source : String) (ss : Array Node) (s u : ParserState) : Prop where
  rounds : Rounds #[] (ofStream (tokenize source)) ss s
  ne_eof : s.input.cur.kind ≠ .eof
  ne_semicolon : s.input.cur.kind ≠ .semicolon
  starts : StartsExpression s u

/-- What becomes of the syntax errors of a source. -/
structure RecordsFaults (source : String) : Prop where
  returns : (∃ parsed, parse source = .ok parsed) ∨
    ∃ stop, StopsTooLong source stop ∧ parse source = .error stop
  /-- A numeral above the greatest integer where an expression starts: the statement is given up and
  reading goes on behind it, and the numeral is among the errors in the end. -/
  range {ss : Array Node} {s u : ParserState} : Meets source ss s u → u.input.cur.kind = .int →
    Int64.max < numeralValue u.input.cur → u.input.cur.literal.length ≤ digitLimit →
    statement rule s = .error .abandoned (u.record ⟨.integerRange, u.input.cur⟩) ∧
    (∃ v, synchronize (u.record ⟨.integerRange, u.input.cur⟩) = .ok () v ∧
      programRound rule ss s = .ok ss (resumed v)) ∧
    ∀ parsed, parse source = .ok parsed → ∃ e ∈ parsed.errors, e.token = u.input.cur ∧
      e.message = "could not parse " ++ u.input.cur.literal ++ " as integer at " ++
        u.input.cur.position.text
  tooLong {ss : Array Node} {s u : ParserState} : Meets source ss s u → u.input.cur.kind = .int →
    digitLimit < u.input.cur.literal.length →
    parse source = .error (.numeral (.tooLong u.input.cur.literal.length))
  /-- A strict reading refuses a source for its errors. -/
  strict {fault : SourceFault} : parseStrict source = .error fault →
    (∃ ns es, parse source = .ok ⟨ns, es⟩ ∧ es ≠ [] ∧ fault = .errors es) ∨
    ∃ stop, StopsTooLong source stop ∧ fault = .stopped stop
  /-- A session shows the errors of a line and goes on. -/
  session {parsed : Parsed} : parse source = .ok parsed → parsed.errors ≠ [] →
    ∀ (verbosity : Nat) (rest : List String) (m : Machine),
      Session.loop false verbosity (source :: rest) m = Session.loop false verbosity rest
        { m with output := m.output ++ Session.prompt ++ Session.errorReport parsed.errors }

section
variable {source : String} {ss : Array Node} {s u : ParserState}

theorem parse_outcome (source : String) : (∃ parsed, parse source = .ok parsed) ∨
    ∃ stop, StopsTooLong source stop ∧ parse source = .error stop := by
  obtain ⟨heof, -⟩ := tokenize_spelled source
  have hs : (ofStream (tokenize source)).Ends := heof
  rw [parse, parseStream_eq heof]
  rcases programFrom_outcome hs #[] with ⟨ts, t, hx⟩ | ⟨fault, u, hx, a, ha, hk, hf⟩
  · rw [hx]
    exact .inl ⟨_, rfl⟩
  · rw [hx]
    refine .inr ⟨_, ⟨a, ha, hk, ?_⟩, rfl⟩
    rw [readInteger_of_mem ha hk] at hf
    split at hf
    · cases hf
    · next hl =>
      cases hf
      exact ⟨Nat.lt_of_not_le hl, rfl⟩

theorem Meets.ends (h : Meets source ss s u) : s.Ends :=
  (h.rounds.programFrom_eq (tokenize_spelled source).1).1

theorem Meets.readInteger_eq (h : Meets source ss s u) (hk : u.input.cur.kind = .int) :
    readInteger u.input.cur.literal.toList =
      if u.input.cur.literal.length ≤ digitLimit then .ok (numeralValue u.input.cur)
      else .error (.tooLong u.input.cur.literal.length) := by
  have hsu := h.starts.reaches h.ends
  have hmem := (Takes.of_cur (hsu.ends h.ends) hk (by decide)).subset List.mem_cons_self
  have hsuffix := h.rounds.suffix (tokenize_spelled source).1
  exact readInteger_of_mem (hsuffix.subset (hsu.input_suffix.subset hmem)) hk

theorem Meets.parse_eq (h : Meets source ss s u) : parse source =
    match programFrom ss s with
    | .ok ts t => .ok ⟨ts.toList, t.errors.toList⟩
    | .error stop _ => .error stop := by
  obtain ⟨heof, -⟩ := tokenize_spelled source
  have hrun := (h.rounds.programFrom_eq heof).2
  cases hprogram : programFrom ss s with
  | ok ts t => rw [parse, parseStream_eq heof, hrun, hprogram]
  | error stop t => rw [parse, parseStream_eq heof, hrun, hprogram]

theorem parse_of_tooLong (h : Meets source ss s u) (hk : u.input.cur.kind = .int)
    (hl : digitLimit < u.input.cur.literal.length) :
    parse source = .error (.numeral (.tooLong u.input.cur.literal.length)) := by
  have hf := h.readInteger_eq hk
  rw [if_neg (Nat.not_le.mpr hl)] at hf
  rw [h.parse_eq, programFrom_of_unreadable h.ends h.ne_eof h.ne_semicolon h.starts hk hf]

/-- A line with errors is answered by their listing, and nothing of it is run. -/
theorem line_of_errors {parsed : Parsed} (h : parse source = .ok parsed) (hne : parsed.errors ≠ [])
    (verbosity : Nat) (m : Machine) : Session.line false verbosity source m =
      .ok () { m with output := m.output ++ Session.errorReport parsed.errors } := by
  have hempty : parsed.errors.isEmpty = false := by simpa using hne
  simp only [Session.line, Session.evalLine, h, hempty]
  rfl

theorem session_loop_of_errors {parsed : Parsed} (h : parse source = .ok parsed)
    (hne : parsed.errors ≠ []) (verbosity : Nat) (rest : List String) (m : Machine) :
    Session.loop false verbosity (source :: rest) m = Session.loop false verbosity rest
      { m with output := m.output ++ Session.prompt ++ Session.errorReport parsed.errors } := by
  rw [Session.loop]
  exact bind_of_ok (line_of_errors h hne verbosity _)

/-- A line that has no reading ends the session, with nothing but the prompt shown. -/
theorem session_loop_of_stopped {stop : Stop} (h : parse source = .error stop) (verbosity : Nat)
    (rest : List String) (m : Machine) :
    Session.loop false verbosity (source :: rest) m =
      .error (.source (.stopped stop)) { m with output := m.output ++ Session.prompt } := by
  have hline (n : Machine) : Session.line false verbosity source n =
      .error (.source (.stopped stop)) n := by
    simp only [Session.line, Session.evalLine, h]
    rfl
  have hprompt : Session.print Session.prompt m =
      .ok () { m with output := m.output ++ Session.prompt } := rfl
  rw [Session.loop, bind_of_ok hprompt]
  exact bind_of_error (hline _)

end

/-- A text of too many digits cannot be read. -/
theorem parse_of_digits {digits : List Char} (hd : ∀ c ∈ digits, isDigit c = true)
    (hl : digitLimit < digits.length) :
    parse (String.ofList digits) = .error (.numeral (.tooLong digits.length)) := by
  have hne : digits ≠ [] := List.ne_nil_of_length_pos (Nat.zero_lt_of_lt hl)
  have hrow : Segmented ([] ++ (rawText .int digits ++ [])) [(.int, digits)] :=
    .token nofun (.number hne hd nofun) (.blank nofun)
  have htokens := hrow.row_eq (c := Cursor.start (String.ofList digits)) (by simp [rawText,
    Cursor.start, Cursor.ofList])
  obtain ⟨t, ts, heq, ht, -⟩ := List.map_eq_cons_iff.mp htokens.symm
  obtain ⟨hkind, hliteral⟩ := Prod.mk.inj ht
  let s := ofStream (tokenize (String.ofList digits))
  have hcur : s.input.cur = t := cur_of_cons heq
  have hint : s.input.cur.kind = .int := hcur ▸ hkind
  have hmeets : Meets (String.ofList digits) #[] s s := by
    refine ⟨.refl _ _, ?_, ?_, startsExpression_self ?_ ?_⟩ <;> rw [hint] <;> decide
  have hlength : s.input.cur.literal.length = digits.length := by
    rw [hcur, ← String.length_toList, hliteral]
  rw [parse_of_tooLong hmeets hint (hlength ▸ hl), hlength]

/-- Syntax errors of a source are recorded and reading goes on behind them, with the exception of
numerals that have more digits than can be read. -/
theorem faults_recorded (source : String) : RecordsFaults source where
  returns := parse_outcome source
  range {ss s u} h hk hlt hl := by
    have hn := h.readInteger_eq hk
    rw [if_pos hl] at hn
    obtain ⟨hx, v, hv, hround, hkept⟩ :=
      round_of_lt h.ends h.ne_eof h.ne_semicolon h.starts hk hn hlt ss
    refine ⟨hx, ⟨v, hv, hround⟩, fun parsed hparsed => ?_⟩
    rw [h.parse_eq] at hparsed
    cases hend : programFrom ss s with
    | ok ts t =>
      rw [hend] at hparsed
      cases hparsed
      refine ⟨_, hkept ts t hend, rfl, ?_⟩
      have hjoin : " as integer at " = " as integer" ++ " at " := rfl
      rw [SyntaxError.message, SyntaxError.reason, hjoin, ← String.append_assoc]
    | error stop t =>
      rw [hend] at hparsed
      cases hparsed
  tooLong h hk hl := parse_of_tooLong h hk hl
  strict {fault} h := by
    unfold parseStrict at h
    rcases parse_outcome source with ⟨⟨ns, es⟩, hparsed⟩ | ⟨stop, hstop, hparsed⟩
    · rw [hparsed] at h
      cases es with
      | nil => cases h
      | cons e es =>
        cases h
        exact .inl ⟨ns, e :: es, hparsed, List.cons_ne_nil e es, rfl⟩
    · rw [hparsed] at h
      cases h
      exact .inr ⟨stop, hstop, rfl⟩
  session h hne := session_loop_of_errors h hne

/-- A numeral above the greatest integer inside an array. -/
theorem faults_recorded_in_array : ∃ s u : ParserState,
    Meets "[1, 9223372036854775808]; 7" #[] s u ∧
    u.input.cur = ⟨.int, "9223372036854775808", ⟨1, 5⟩⟩ ∧
    (∃ v, synchronize (u.record ⟨.integerRange, u.input.cur⟩) = .ok () v ∧
      programRound rule #[] s = .ok #[] (resumed v)) ∧
    ∃ parsed, parse "[1, 9223372036854775808]; 7" = .ok parsed ∧ parsed.statements.length = 1 ∧
      ∃ e ∈ parsed.errors,
        e.message = "could not parse 9223372036854775808 as integer at 1:5" := by
  obtain ⟨s, u, hmeets, hcur⟩ : ∃ s u : ParserState,
      Meets "[1, 9223372036854775808]; 7" #[] s u ∧
      u.input.cur = ⟨.int, "9223372036854775808", ⟨1, 5⟩⟩ :=
    ⟨_, (ofStream (tokenize "[1, 9223372036854775808]; 7")).advance.advance.advance,
      ⟨.refl _ _, by decide, by decide, rfl⟩, rfl⟩
  obtain ⟨-, hround, herror⟩ := (faults_recorded "[1, 9223372036854775808]; 7").range hmeets
    (by rw [hcur]) (by rw [hcur]; decide) (by rw [hcur]; decide)
  obtain ⟨parsed, hparsed, hone⟩ : ∃ parsed,
      parse "[1, 9223372036854775808]; 7" = .ok parsed ∧ parsed.statements.length = 1 :=
    ⟨_, rfl, rfl⟩
  obtain ⟨e, he, -, hmessage⟩ := herror parsed hparsed
  rw [hcur] at hmessage
  exact ⟨s, u, hmeets, hcur, hround, parsed, hparsed, hone, e, he, hmessage⟩

/-- A numeral of one digit too many is no recorded error: the source has no reading, a strict
reading fails for another reason than its errors, and a session ends. -/
theorem not_recorded_of_nines :
    (∀ parsed, parse (String.ofList (List.replicate 4301 '9')) ≠ .ok parsed) ∧
    parseStrict (String.ofList (List.replicate 4301 '9')) =
      .error (.stopped (.numeral (.tooLong 4301))) ∧
    ∀ (verbosity : Nat) (rest : List String) (m : Machine),
      Session.loop false verbosity (String.ofList (List.replicate 4301 '9') :: rest) m =
        .error (.source (.stopped (.numeral (.tooLong 4301))))
          { m with output := m.output ++ Session.prompt } := by
  have hparse : parse (String.ofList (List.replicate 4301 '9')) =
      .error (.numeral (.tooLong 4301)) := by
    have hd : ∀ c ∈ List.replicate 4301 '9', isDigit c = true := by
      intro c hc
      rw [List.eq_of_mem_replicate hc]
      rfl
    rw [parse_of_digits hd (by rw [List.length_replicate]; decide), List.length_replicate]
  refine ⟨fun parsed h => ?_, ?_, session_loop_of_stopped hparse⟩
  · rw [hparse] at h
    cases h
  · rw [parseStrict, hparse]

end Simian
