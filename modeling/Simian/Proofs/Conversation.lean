import Simian.Proofs.Evaluation.Faultless
import Simian.Proofs.Evaluation.Origin
import Simian.Proofs.Faults

/-!
# Sessions of many lines

A session answers all its lines, whatever they are. Lines with syntax errors and lines without a
statement are idle: when they are taken out, the other lines are answered in the same way and the
same names are bound in the end. A line that ends with an error leaves what was completed before,
and the lines after it are answered as by any interpreter that has these bindings.
-/

namespace Simian

open Value
set_option autoImplicit false

/-- Machines that differ in what was printed and noted, and in the rest as the likeness allows. -/
structure Machine.Twinned (L : Likeness) (m n : Machine) : Prop where
  store : Store.Joined L m.store n.store
  functions : ∀ k, L.number (m.functions + k) (n.functions + k)

/-- Scopes as sources leave them: no function has a body without statements, and no signal is
bound. -/
structure Store.Sound (s : Store) : Prop where
  holds : s.Holds Eval.FromSource
  signalFree : s.SignalFree

theorem Store.sound_initial : Store.initial.Sound := ⟨holds_initial, signalFree_initial⟩

namespace Session

open Eval Machine

/-! ## The answer to a line -/

/-- A line that is not run: it has errors or no statement. -/
def isIdle (text : String) : Bool :=
  match parse text with
  | .ok parsed => !parsed.errors.isEmpty || parsed.statements.isEmpty
  | .error _ => false

/-- What is shown of the value of a line. -/
def response (program : List Node) (v : Value) : String :=
  if isSilent program v then "" else v.inspect ++ "\n"

/-- How a line takes one machine to another. -/
inductive Answers (verbosity : Nat) (text : String) (m : Machine) : Machine → Prop where
  | errors {parsed : Parsed} : parse text = .ok parsed → parsed.errors ≠ [] →
      Answers verbosity text m { m with output := m.output ++ errorReport parsed.errors }
  | empty {parsed : Parsed} : parse text = .ok parsed → parsed.errors = [] →
      parsed.statements = [] → Answers verbosity text m m
  | run {parsed : Parsed} {v : Value} {n : Machine} : parse text = .ok parsed →
      parsed.errors = [] → parsed.statements ≠ [] →
      Eval.run verbosity Store.globalScope parsed.statements m = .ok v n →
      Answers verbosity text m { n with output := n.output ++ response parsed.statements v }

section
variable {verbosity : Nat} {text : String} {m n : Machine}

theorem ofEval_of_ok {α : Type} {p : EvalM α} {a : α} (h : p m = .ok a n) :
    ofEval p m = .ok a n := by
  rw [ofEval]
  simp only [h]

theorem ofEval_of_error {α : Type} {p : EvalM α} {fault : EvalFault} (h : p m = .error fault n) :
    ofEval p m = .error (.eval fault) n := by
  rw [ofEval]
  simp only [h]

theorem line_of_empty {parsed : Parsed} (h : parse text = .ok parsed) (he : parsed.errors = [])
    (hs : parsed.statements = []) : line false verbosity text m = .ok () m := by
  simp only [line, evalLine, h, he, hs]
  rfl

/-- A line is run when it has statements and no errors. -/
theorem line_of_statements {parsed : Parsed} (h : parse text = .ok parsed)
    (he : parsed.errors = []) (hs : parsed.statements ≠ []) : line false verbosity text m =
      match Eval.run verbosity Store.globalScope parsed.statements m with
      | .ok v n => .ok () { n with output := n.output ++ response parsed.statements v }
      | .error fault n => .error (.eval fault) n := by
  have hempty : parsed.statements.isEmpty = false := by simpa using hs
  simp only [line, evalLine, h, he, hempty]
  change (ofEval _ >>= _) m = _
  cases hrun : Eval.run verbosity Store.globalScope parsed.statements m with
  | error fault n => exact bind_of_error (ofEval_of_error hrun)
  | ok v n =>
    rw [bind_of_ok (ofEval_of_ok hrun)]
    simp only [response]
    split
    · rw [String.append_empty]
      rfl
    · rfl

theorem line_eq_ok_iff : line false verbosity text m = .ok () n ↔ Answers verbosity text m n := by
  constructor
  · intro h
    cases hparsed : parse text with
    | error stop =>
      rw [line, if_neg Bool.false_ne_true, evalLine, hparsed] at h
      cases h
    | ok parsed =>
      by_cases he : parsed.errors = []
      · by_cases hs : parsed.statements = []
        · rw [line_of_empty hparsed he hs] at h
          cases h
          exact .empty hparsed he hs
        · rw [line_of_statements hparsed he hs] at h
          split at h
          · next hrun =>
            cases h
            exact .run hparsed he hs hrun
          · cases h
      · rw [line_of_errors hparsed he] at h
        cases h
        exact .errors hparsed he
  · intro h
    cases h with
    | errors hparsed he => exact line_of_errors hparsed he verbosity m
    | empty hparsed he hs => exact line_of_empty hparsed he hs
    | run hparsed he hs hrun => rw [line_of_statements hparsed he hs, hrun]

/-- An idle line only prints. -/
theorem Answers.of_isIdle (h : Answers verbosity text m n) (hi : isIdle text = true) :
    n.store = m.store ∧ n.functions = m.functions := by
  cases h with
  | errors => exact ⟨rfl, rfl⟩
  | empty => exact ⟨rfl, rfl⟩
  | run hparsed he hs =>
    simp only [isIdle, hparsed, he, List.isEmpty_nil, Bool.not_true, Bool.false_or] at hi
    exact absurd (List.isEmpty_iff.mp hi) hs

theorem Answers.sound (h : Answers verbosity text m n) (hm : m.store.Sound) : n.store.Sound := by
  cases h with
  | errors => exact hm
  | empty => exact hm
  | @run parsed v n hparsed _ _ hrun =>
    have hbuilt : builtContents.invariant.Kept _ (runUpTo callLimit verbosity Store.globalScope
        parsed.statements m) :=
      (Contents.at_run built_of_source hparsed _ callLimit hm.holds).ends (builtContents_suits _)
    have hfree : signalInvariant.Keeps _
        (runUpTo callLimit verbosity Store.globalScope parsed.statements) :=
      Invariant.runUpTo_keeps callLimit fun _ _ => trivial
    exact ⟨(hbuilt.of_ok hrun).1, (hfree.ok hm.signalFree hrun).1⟩

/-- A line is answered, unless it has a numeral that cannot be read. -/
theorem exists_answers (hm : m.store.Sound)
    (ht : ∀ t ∈ (tokenize text).tokens, t.kind = .int → t.literal.length ≤ Text.digitLimit) :
    ∃ n reply, Answers verbosity text m n ∧ n.output = m.output ++ reply := by
  rcases parse_outcome text with ⟨parsed, hparsed⟩ | ⟨stop, ⟨t, hmem, hk, hl, -⟩, -⟩
  · by_cases he : parsed.errors = []
    · by_cases hs : parsed.statements = []
      · exact ⟨m, "", .empty hparsed he hs, String.append_empty.symm⟩
      · obtain ⟨v, n, hrun⟩ : ∃ v n, runUpTo callLimit verbosity Store.globalScope
            parsed.statements m = .ok v n := exists_runUpTo_ok hm.holds hparsed _ _
        obtain ⟨printed, hout⟩ :=
          exists_output_eq callLimit verbosity Store.globalScope m parsed.statements
        rw [hrun] at hout
        refine ⟨_, printed ++ response parsed.statements v, .run hparsed he hs hrun, ?_⟩
        rw [← String.append_assoc, ← hout]
        rfl
    · exact ⟨_, _, .errors hparsed he, rfl⟩
  · exact absurd (ht t hmem hk) (Nat.not_le.mpr hl)

theorem response_eq_of_like {L : Likeness} {v w : Value} (h : Like L v w)
    (program : List Node) : response program v = response program w := by
  have hsilent : isSilent program v = isSilent program w := by cases h <;> rfl
  rw [response, response, hsilent, h.inspect_eq]

/-- Machines that are twins answer a line with the same text and stay twins. -/
theorem Answers.twinned {L : Likeness} {m' : Machine} (h : Answers verbosity text m m')
    (hs : L.scope Store.globalScope Store.globalScope) (hmn : Twinned L m n) :
    ∃ n' reply, Answers verbosity text n n' ∧ Twinned L m' n' ∧
      m'.output = m.output ++ reply ∧ n'.output = n.output ++ reply := by
  cases h with
  | errors hparsed he => exact ⟨_, _, .errors hparsed he, ⟨hmn.store, hmn.functions⟩, rfl, rfl⟩
  | empty hparsed he hss =>
    exact ⟨n, "", .empty hparsed he hss, hmn, String.append_empty.symm, String.append_empty.symm⟩
  | @run parsed v l hparsed he hss hrun =>
    have halong : Alongside L verbosity verbosity m n (Like L)
        (Eval.run verbosity Store.globalScope parsed.statements m)
        (Eval.run verbosity Store.globalScope parsed.statements n) :=
      runUpTo_lockstep callLimit hs rfl m n (.refl hmn.store hmn.functions)
    rw [hrun] at halong
    generalize hrun' : Eval.run verbosity Store.globalScope parsed.statements n = r at halong
    cases halong with
    | @ok _ w _ l' htied hv =>
      obtain ⟨printed, hm, hn⟩ := htied.output
      refine ⟨_, printed ++ response parsed.statements v, .run hparsed he hss hrun',
        ⟨htied.store, htied.functions⟩, ?_, ?_⟩
      · rw [hm, String.append_assoc]
      · rw [hn, String.append_assoc, response_eq_of_like hv]

end

/-! ## Exchanges -/

/-- The lines of a session, each with what is answered to it. -/
inductive Converses (verbosity : Nat) : Machine → List (String × String) → Machine → Prop where
  | nil (m : Machine) : Converses verbosity m [] m
  | cons {m n l : Machine} {text reply : String} {xs : List (String × String)} :
      line false verbosity text { m with output := m.output ++ prompt } = .ok () n →
      n.output = m.output ++ prompt ++ reply → Converses verbosity n xs l →
      Converses verbosity m ((text, reply) :: xs) l

namespace Converses

variable {verbosity : Nat} {m n : Machine} {xs ys : List (String × String)}

theorem loop_eq (h : Converses verbosity m xs n) : loop false verbosity (xs.map Prod.fst) m =
    .ok () { n with output := n.output ++ prompt } := by
  induction h with
  | nil m => rfl
  | @cons m n l text reply xs hline _ _ ih =>
    have hprompt : print prompt m = .ok () { m with output := m.output ++ prompt } := rfl
    rw [List.map_cons, loop, bind_of_ok hprompt, bind_of_ok hline]
    exact ih

theorem output_eq (h : Converses verbosity m xs n) :
    n.output = m.output ++ String.join (xs.map fun x => prompt ++ x.2) := by
  induction h with
  | nil m => exact String.append_empty.symm
  | cons _ hout _ ih =>
    rw [ih, hout, List.map_cons, String.join_cons, String.append_assoc, String.append_assoc,
      String.append_assoc]

theorem append_iff : Converses verbosity m (xs ++ ys) n ↔
    ∃ l, Converses verbosity m xs l ∧ Converses verbosity l ys n := by
  constructor
  · intro h
    induction xs generalizing m with
    | nil => exact ⟨m, .nil m, h⟩
    | cons x xs ih =>
      cases h with
      | cons hline hout hrest =>
        obtain ⟨l, hxs, hys⟩ := ih hrest
        exact ⟨l, .cons hline hout hxs, hys⟩
  · rintro ⟨l, hxs, hys⟩
    induction hxs with
    | nil => exact hys
    | cons hline hout _ ih => exact .cons hline hout (ih hys)

theorem sound (h : Converses verbosity m xs n) (hm : m.store.Sound) : n.store.Sound := by
  induction h with
  | nil => exact hm
  | cons hline _ _ ih => exact ih ((line_eq_ok_iff.mp hline).sound hm)

/-- On a twin of the machine the lines are answered in the same way, also without some idle
ones. -/
theorem filter {L : Likeness} {m' : Machine} (h : Converses verbosity m xs m')
    (hs : L.scope Store.globalScope Store.globalScope) {keep : String → Bool}
    (hidle : ∀ text, keep text = false → isIdle text = true) (hmn : Twinned L m n) :
    ∃ n', Converses verbosity n (xs.filter fun x => keep x.1) n' ∧ Twinned L m' n' := by
  induction h generalizing n with
  | nil m => exact ⟨n, .nil n, hmn⟩
  | @cons m l m' text reply xs hline hout _ ih =>
    have hanswers := line_eq_ok_iff.mp hline
    rw [List.filter_cons]
    cases hkeep : keep text with
    | false =>
      obtain ⟨hstore, hfunctions⟩ := hanswers.of_isIdle (hidle text hkeep)
      exact ih ⟨hstore ▸ hmn.store, hfunctions ▸ hmn.functions⟩
    | true =>
      have hprompted : Twinned L { m with output := m.output ++ prompt }
          { n with output := n.output ++ prompt } := ⟨hmn.store, hmn.functions⟩
      obtain ⟨l', reply', hline', hl, hout', hreply⟩ := hanswers.twinned hs hprompted
      obtain rfl : reply = reply' := String.append_right_inj _ |>.mp (hout.symm.trans hout')
      obtain ⟨n', hrest, hn'⟩ := ih hl
      exact ⟨n', .cons (line_eq_ok_iff.mpr hline') hreply hrest, hn'⟩

/-- On a machine with scopes that are linked the lines are answered in the same way. -/
theorem of_linked {ρ : Links} {m' : Machine} (h : Converses verbosity m xs m')
    (hs : Store.Linked ρ m.store n.store) (hl : ρ Store.globalScope Store.globalScope) :
    ∃ n' σ, Converses verbosity n xs n' ∧ ρ ≤ σ ∧ Store.Linked σ m'.store n'.store := by
  have hle : ρ ≤ ρ.withLater m.store n.store := ρ.le_withLater _ _
  have htwinned : Twinned (ρ.withLater m.store n.store).likeness m n :=
    ⟨hs.joined, fun _ => trivial⟩
  have hnone (text : String) (hfalse : (fun _ : String => true) text = false) :
      isIdle text = true := nomatch hfalse
  obtain ⟨n', hxs, hn'⟩ := h.filter (hle _ _ hl) hnone htwinned
  rw [List.filter_true] at hxs
  exact ⟨n', _, hxs, hle, hn'.store.linked⟩

end Converses

theorem exists_converses {verbosity : Nat} (texts : List String)
    (ht : ∀ text ∈ texts, ∀ t ∈ (tokenize text).tokens, t.kind = .int →
      t.literal.length ≤ Text.digitLimit) {m : Machine} (hm : m.store.Sound) :
    ∃ xs n, Converses verbosity m xs n ∧ xs.map Prod.fst = texts := by
  induction texts generalizing m with
  | nil => exact ⟨[], m, .nil m, rfl⟩
  | cons text texts ih =>
    have hprompted : Store.Sound { m with output := m.output ++ prompt }.store := hm
    obtain ⟨n, reply, hanswers, hout⟩ := exists_answers hprompted (ht text List.mem_cons_self)
    obtain ⟨xs, l, hxs, hmap⟩ :=
      ih (fun t ht' => ht t (List.mem_cons_of_mem text ht')) (hanswers.sound hm)
    exact ⟨(text, reply) :: xs, l, .cons (line_eq_ok_iff.mpr hanswers) hout hxs,
      congrArg (text :: ·) hmap⟩

/-! ## Whole inputs -/

/-- An input without the lines that are not kept. -/
def retained (keep : String → Bool) (input : String) : String :=
  String.join ((Text.lines input).filter keep)

def prompted (m : Machine) : Machine := { m with output := m.output ++ prompt }

def reported (e : RuntimeError) (m : Machine) : Machine :=
  { m with output := m.output ++ (Value.error e).inspect ++ "\n" }

/-- The lines from machine `m` on are answered in the same way from every machine that has the same
bindings. -/
structure Continues (verbosity : Nat) (m : Machine) (xs : List (String × String)) (m' : Machine) :
    Prop where
  converses : Converses verbosity m xs m'
  linked {ρ : Links} {n : Machine} : Store.Linked ρ m.store n.store →
    ρ Store.globalScope Store.globalScope →
    ∃ n' σ, Converses verbosity n xs n' ∧ ρ ≤ σ ∧ Store.Linked σ m'.store n'.store

/-- The exchanges of a session over a whole input, from machine `m` to `m'`. -/
structure Conversation (verbosity : Nat) (input : String) (m : Machine)
    (xs : List (String × String)) (m' : Machine) : Prop where
  lines : xs.map Prod.fst = Text.lines input
  converses : Converses verbosity m xs m'
  run : Session.run false verbosity input m = .ok () (prompted m')
  /-- A prompt comes before each answer. -/
  output : m'.output = m.output ++ String.join (xs.map fun x => prompt ++ x.2)
  /-- Without idle lines the other ones are answered in the same way, and the same names are bound
  in the end. -/
  idle {keep : String → Bool} : (∀ text, keep text = false → isIdle text = true) →
    ∃ n, Session.run false verbosity (retained keep input) m = .ok () (prompted n) ∧
      (xs.filter fun x => keep x.1).map Prod.fst = Text.lines (retained keep input) ∧
      Converses verbosity m (xs.filter fun x => keep x.1) n ∧ Store.Same m'.store n.store
  /-- A line that ends with an error leaves what was completed before the error. -/
  fault {before after : List (String × String)} {text reply : String} {parsed : Parsed} :
    xs = before ++ (text, reply) :: after → parse text = .ok parsed → parsed.errors = [] →
    ∃ a, Converses verbosity m before a ∧ ∀ e b,
      Eval.run verbosity Store.globalScope parsed.statements (prompted a) = .ok (.error e) b →
      Eval.Stops callLimit verbosity Store.globalScope parsed.statements (prompted a) b ∧
      Converses verbosity a [(text, reply)] (reported e b) ∧
      Continues verbosity (reported e b) after m'

section
variable {verbosity : Nat} {input : String} {m m' : Machine} {xs : List (String × String)}

theorem run_of_converses (h : Converses verbosity m xs m')
    (hlines : xs.map Prod.fst = Text.lines input) :
    Session.run false verbosity input m = .ok () (prompted m') := by
  rw [Session.run, ← hlines]
  exact h.loop_eq

theorem lines_retained (hlines : xs.map Prod.fst = Text.lines input) (keep : String → Bool) :
    (xs.filter fun x => keep x.1).map Prod.fst = Text.lines (retained keep input) := by
  rw [retained, Text.lines_join_filter, ← hlines, List.filter_map]
  rfl

/-- A line whose run ends with an error is answered by what was printed and the message. -/
theorem line_of_fault {text : String} {parsed : Parsed} {e : RuntimeError} {b : Machine}
    (hparsed : parse text = .ok parsed) (he : parsed.errors = []) (hm : m.store.SignalFree)
    (hrun : Eval.run verbosity Store.globalScope parsed.statements m = .ok (.error e) b) :
    Eval.Stops callLimit verbosity Store.globalScope parsed.statements m b ∧
      line false verbosity text m = .ok () (reported e b) := by
  have hstops := stops_of_error hm hrun
  obtain ⟨before, s, rest, hsplit, -⟩ := hstops.split
  have hss : parsed.statements ≠ [] := by
    rw [hsplit]
    exact List.append_ne_nil_of_right_ne_nil before (List.cons_ne_nil s rest)
  have hsilent : isSilent parsed.statements (.error e) = false := Bool.and_false _
  refine ⟨hstops, ?_⟩
  rw [line_of_statements hparsed he hss, hrun]
  simp only [response, hsilent, reported, String.append_assoc]
  rfl

/-- Whatever its lines are, a session answers them all; idle lines leave no trace; and a line that
ends with an error leaves what was completed before, on which the lines after it build. -/
theorem exists_conversation (hm : m.store.Sound) (hread : ∀ text ∈ Text.lines input,
      ∀ t ∈ (tokenize text).tokens, t.kind = .int → t.literal.length ≤ Text.digitLimit) :
    ∃ xs m', Conversation verbosity input m xs m' := by
  obtain ⟨xs, m', hxs, hlines⟩ := exists_converses _ hread hm
  refine ⟨xs, m', hlines, hxs, run_of_converses hxs hlines, hxs.output_eq, ?_, ?_⟩
  · intro keep hidle
    obtain ⟨n, hn, htwinned⟩ := hxs.filter (L := .upTo id) rfl hidle ⟨.refl id m.store, fun _ => rfl⟩
    have hretained := lines_retained hlines keep
    exact ⟨n, run_of_converses hn hretained, hretained, hn, htwinned.store.same⟩
  · rintro before after text reply parsed rfl hparsed he
    obtain ⟨a, hbefore, hrest⟩ := Converses.append_iff.mp hxs
    refine ⟨a, hbefore, fun e b hrun => ?_⟩
    have ha : (prompted a).store.SignalFree := (hbefore.sound hm).signalFree
    obtain ⟨hstops, hline⟩ := line_of_fault hparsed he ha hrun
    cases hrest with
    | cons hline' hout hafter =>
      cases hline.symm.trans hline'
      exact ⟨hstops, .cons hline' hout (.nil _), hafter, hafter.of_linked⟩

/-- A line with a syntax error, one without a statement and one that is cut short behind the first
of two inner bindings: only that one is found by the last line. -/
theorem exists_conversation_mixed : ∃ source : String, source =
      "let x = 1\nlet = 2\n\nif (x) \x7b let z = x; let y = x / 0 \x7d; 3\nputs(z); y\n" ∧
    Machine.initial.store.Sound ∧
    (∀ text ∈ Text.lines source, ∀ t ∈ (tokenize text).tokens, t.kind = .int →
      t.literal.length ≤ Text.digitLimit) ∧
    ∃ xs m' n, Conversation 0 source .initial xs m' ∧ (prompted m').output =
        ">> >> parser errors:\n\texpected next token to be IDENT, got = instead at 1:5\n" ++
        ">> >> ERROR: division by zero\n>> 1\nERROR: identifier not found: y\n>> " ∧
      Session.run false 0 (retained (fun text => !isIdle text) source) .initial =
        .ok () (prompted n) ∧ Store.Same m'.store n.store := by
  obtain ⟨source, hsource⟩ : ∃ source : String, source =
      "let x = 1\nlet = 2\n\nif (x) \x7b let z = x; let y = x / 0 \x7d; 3\nputs(z); y\n" := ⟨_, rfl⟩
  have hsound : Machine.initial.store.Sound := Store.sound_initial
  have hread : ∀ text ∈ Text.lines source, ∀ t ∈ (tokenize text).tokens, t.kind = .int →
      t.literal.length ≤ Text.digitLimit := by
    subst hsource
    decide +kernel
  obtain ⟨xs, m', h⟩ : ∃ xs m', Conversation 0 source .initial xs m' :=
    exists_conversation hsound hread
  have hidle (text : String) (hkeep : (!isIdle text) = false) : isIdle text = true := by
    simpa using hkeep
  obtain ⟨n, hn, -, -, hsame⟩ := h.idle hidle
  refine ⟨source, hsource, hsound, hread, xs, m', n, h, ?_, hn, hsame⟩
  let printing : SessionM String := do
    Session.run false 0 source
    return (← get).output
  have hprinting : printing .initial = .ok (prompted m').output (prompted m') :=
    (bind_of_ok h.run).trans rfl
  have houtput : some (prompted m').output = printing.run' .initial := by
    delta EStateM.run' EStateM.run
    rw [hprinting]
  apply Option.some.inj (houtput.trans _)
  subst hsource
  decide +kernel

end

end Session

end Simian
