import Simian.Proofs.Conversation
import Simian.Proofs.Emission
import Simian.Proofs.Seam

/-!
# One line in a file and in a session

A program of one line that gives a value prints the same text from a file and in a session, unless
it ends in a `let`. A `let` that is carried out gives `null`; so a program that ends in one and gives
anything else was left by a `return`. Then the file shows the value, and the session does not.
-/

namespace Simian

open Value
set_option autoImplicit false

/-! ## Texts of one line -/

namespace Text

variable {text : String} (h : '\n' ∉ text.toList)
include h

theorem lines_of_not_mem (hne : text ≠ "") : lines text = [text] := by
  rw [lines, lineChars_of_not_mem (mt String.toList_eq_nil_iff.mp hne) h, List.map_singleton,
    String.ofList_toList]

theorem lines_append_newline : lines (text ++ "\n") = [text ++ "\n"] := by
  have hchars : (text ++ "\n").toList = text.toList ++ '\n' :: [] := String.toList_append
  rw [lines, hchars, lineChars_append_newline h, lineChars_nil, List.map_singleton, ← hchars,
    String.ofList_toList]

end Text

namespace Eval

/-! ## Programs that end in a `let` -/

def EndsInLet (program : List Node) : Prop :=
  ∃ t x e, program.getLast? = some (.letStatement t x e)

section
variable {limit verbosity : Nat} {call : Caller} {scope : ScopeId} {program : List Node}
  {last v : Value} {m n : Machine}

theorem node_letStatement_eq_null {t : Token} {x : Ident} {e : Node}
    (h : node verbosity call scope (.letStatement t x e) m = .ok v n) (hv : v.isSignal = false) :
    v = .null := by
  rw [node] at h
  obtain ⟨w, m', -, -, hrest⟩ := exists_of_unless_eq h hv
  have hbind : Machine.bind scope x.name w m' =
      .ok () { m' with store := m'.store.set scope x.name w } := rfl
  rw [bind_of_ok hbind, bind_of_ok (Machine.note_eq _ _ _ _)] at hrest
  cases hrest
  rfl

theorem statements_eq_null (hend : EndsInLet program) (hlast : last.isSignal = false)
    (h : statements verbosity call scope last program m = .ok v n) (hv : v.isSignal = false) :
    v = .null := by
  obtain ⟨t, x, e, hend⟩ := hend
  obtain ⟨before, rfl⟩ := List.getLast?_eq_some_iff.mp hend
  rw [statements_append hlast] at h
  obtain ⟨w, m', -, -, hrest⟩ := exists_of_unless_eq h hv
  rw [statements] at hrest
  obtain ⟨u, m'', hu, hsignal, hdone⟩ := exists_of_unless_eq hrest hv
  cases hdone
  exact node_letStatement_eq_null hu hv

/-- The value of a run that goes through is that of its statements. -/
theorem exists_statements_eq (h : RunsThrough limit verbosity scope program m)
    (hrun : runUpTo limit verbosity scope program m = .ok v n) : ∃ trace l,
    statements verbosity (callUpTo verbosity limit) scope .null program { m with trace := trace } =
      .ok v l ∧ v.isSignal = false := by
  obtain ⟨before, after, heq⟩ := exists_runUpTo_eq program m
  rw [heq] at hrun
  have hthrough : RunsThrough limit verbosity scope program { m with trace := before } :=
    h.of_matched (L := .upTo id) rfl (.of_traces id m m.trace before)
  obtain ⟨w, l, hw, hsignal⟩ := hthrough
  rw [unnoted_of_ok hw, unwrapped_of_not_isSignal hsignal] at hrun
  cases hrun
  exact ⟨before, l, hw, hsignal⟩

theorem runUpTo_nil (h : runUpTo limit verbosity scope [] m = .ok v n) : v = .null := by
  have hthrough : RunsThrough limit verbosity scope [] m := ⟨.null, m, rfl, rfl⟩
  obtain ⟨trace, l, hl, -⟩ := exists_statements_eq hthrough h
  cases hl
  rfl

/-- A program that ends in a `let` and is run through gives `null`. -/
theorem runUpTo_eq_null (hend : EndsInLet program) (h : RunsThrough limit verbosity scope program m)
    (hrun : runUpTo limit verbosity scope program m = .ok v n) : v = .null := by
  obtain ⟨trace, l, hl, hv⟩ := exists_statements_eq h hrun
  exact statements_eq_null hend rfl hl hv

end

end Eval

/-! ## The two front ends -/

namespace Session

open Eval

theorem isSilent_iff {program : List Node} {v : Value} :
    isSilent program v = true ↔ EndsInLet program ∧ ∀ e, v ≠ .error e := by
  unfold isSilent EndsInLet
  rw [Bool.and_eq_true]
  apply and_congr
  · cases program.getLast? with
    | none => simp
    | some s => cases s <;> simp [isLet]
  · cases v with
    | error e => exact ⟨(nomatch ·), fun h => absurd rfl (h e)⟩
    | _ => exact ⟨fun _ _ => (nomatch ·), fun _ => rfl⟩

theorem response_of_endsInLet {program : List Node} {v : Value} (h : EndsInLet program)
    (hv : ∀ e, v ≠ .error e) : response program v = "" := if_pos (isSilent_iff.mpr ⟨h, hv⟩)

theorem response_of_not_endsInLet {program : List Node} (h : ¬ EndsInLet program) (v : Value) :
    response program v = v.inspect ++ "\n" := if_neg fun hs => h (isSilent_iff.mp hs).1

end Session

namespace CommandLine

open Text Eval Session

/-- How the value `v` of a program of one line is shown, when the run of it leaves machine `m`. -/
structure ShownByBoth (verbosity : Nat) (text : String) (program : List Node) (v : Value)
    (m : Machine) : Prop where
  file {args : List String} {path : FilePath} {find : FilePath → Found} (input : String) :
    Asks args (.runProgram path verbosity) → find path = .file text → run args find input =
      ⟨.ok 0, m.output ++ v.inspect ++ "\n", "", traceFiles verbosity m⟩
  /-- The line may end with the text or with a line feed. -/
  session {args : List String} (find : FilePath → Found) {ending : String} :
    Asks args (.session false verbosity) → ending = "" ∨ ending = "\n" →
    (run args find (text ++ ending)).exit = .ok 0 ∧ (run args find (text ++ ending)).stdout =
      prompt ++ (m.output ++ response program v) ++ prompt
  same : ¬ EndsInLet program → response program v = v.inspect ++ "\n"
  /-- Such a program was left by a `return`. -/
  silent : EndsInLet program → response program v = "" ∧
    ¬ RunsThrough callLimit verbosity Store.globalScope program .initial

variable {verbosity : Nat} {text : String} {program : List Node} {v : Value} {m : Machine}

theorem execute_of_value (hrun : Eval.run verbosity Store.globalScope program .initial = .ok v m)
    (hnull : v ≠ .null) (herror : ∀ e, v ≠ .error e) : execute verbosity program =
      ⟨.ok 0, m.output ++ v.inspect ++ "\n", "", traceFiles verbosity m⟩ := by
  rw [execute, hrun]
  cases v with
  | null => exact absurd rfl hnull
  | error e => exact absurd rfl (herror e)
  | _ => rfl

/-- A session of a line that has a value. -/
theorem runSession_of_line (hlines : lines text = [text]) (hparse : parseStrict text = .ok program)
    (hne : program ≠ [])
    (hrun : Eval.run verbosity Store.globalScope program .initial = .ok v m) :
    (runSession false verbosity text).exit = .ok 0 ∧ (runSession false verbosity text).stdout =
      prompt ++ (m.output ++ response program v) ++ prompt := by
  have hanswers : Answers verbosity text .initial
      { m with output := m.output ++ response program v } :=
    .run (parseStrict_eq_ok_iff.mp hparse) rfl hne hrun
  have htwinned : Machine.Twinned (.upTo id) .initial (prompted .initial) :=
    ⟨.refl id _, fun _ => rfl⟩
  obtain ⟨n, reply, hline, -, hreply, houtput⟩ := hanswers.twinned rfl htwinned
  have hconverses : Converses verbosity .initial [(text, reply)] n :=
    .cons (line_eq_ok_iff.mpr hline) houtput (.nil n)
  have hsession := run_of_converses hconverses hlines.symm
  have hreply : m.output ++ response program v = reply := hreply.trans String.empty_append
  rw [runSession, hsession]
  refine ⟨rfl, ?_⟩
  change n.output ++ prompt = _
  rw [houtput, hreply]
  rfl

theorem lines_append_ending {ending : String} (h : '\n' ∉ text.toList) (hne : text ≠ "")
    (he : ending = "" ∨ ending = "\n") : lines (text ++ ending) = [text ++ ending] := by
  rcases he with rfl | rfl
  · rw [String.append_empty]
    exact lines_of_not_mem h hne
  · exact lines_append_newline h

theorem parseStrict_append_ending {ending : String} (h : parseStrict text = .ok program)
    (he : ending = "" ∨ ending = "\n") : parseStrict (text ++ ending) = .ok program := by
  rcases he with rfl | rfl
  · rwa [String.append_empty]
  · exact parseStrict_append_blanks h (List.forall_mem_singleton.mpr (rfl : isBlank '\n' = true))

/-- A program of one line that gives a value shows the same from a file and in a session, unless it
ends in a `let` and was left by a `return`. -/
theorem shown_by_both (hline : '\n' ∉ text.toList) (hreturn : '\r' ∉ text.toList)
    (hparse : parseStrict text = .ok program)
    (hrun : Eval.run verbosity Store.globalScope program .initial = .ok v m)
    (hnull : v ≠ .null) (herror : ∀ e, v ≠ .error e) :
    ShownByBoth verbosity text program v m where
  file input hasks hfind := by
    have hunified : parseStrict (unifyLines text) = .ok program := by
      rwa [unifyLines, unifyChars_of_not_mem hreturn, String.ofList_toList]
    rw [run_of_asks hasks, run_runProgram hfind hunified, execute_of_value hrun hnull herror]
  session find ending hasks hending := by
    have hne : program ≠ [] := by
      rintro rfl
      exact hnull (runUpTo_nil hrun)
    have hempty : text ≠ "" := by
      rintro rfl
      cases hparse
      exact hne rfl
    rw [run_of_asks hasks]
    exact runSession_of_line (lines_append_ending hline hempty hending)
      (parseStrict_append_ending hparse hending) hne hrun
  same h := response_of_not_endsInLet h v
  silent h := ⟨response_of_endsInLet h herror, fun hthrough => hnull (runUpTo_eq_null h hthrough hrun)⟩

/-- A `let` and a call that prints, before the value. -/
theorem shown_by_both_array : ∃ text program v m, text = "let x = 2; puts(true); [x, x]" ∧
    '\n' ∉ text.toList ∧ '\r' ∉ text.toList ∧ parseStrict text = .ok program ∧
    Eval.run 0 Store.globalScope program .initial = .ok v m ∧ v ≠ .null ∧ (∀ e, v ≠ .error e) ∧
    ShownByBoth 0 text program v m ∧ ¬ EndsInLet program ∧
    m.output ++ v.inspect ++ "\n" = "true\n[2, 2]\n" := by
  obtain ⟨text, htext⟩ : ∃ text, text = "let x = 2; puts(true); [x, x]" := ⟨_, rfl⟩
  have hline : '\n' ∉ text.toList ∧ '\r' ∉ text.toList := by
    subst htext
    decide
  obtain ⟨program, t, e, hparse, hlast, m, hrun, houtput⟩ : ∃ program t e,
      parseStrict text = .ok program ∧ program.getLast? = some (.expressionStatement t e) ∧
      ∃ m, Eval.run 0 Store.globalScope program .initial =
        .ok (.array [.integer 2, .integer 2]) m ∧ m.output = "true\n" := by
    subst htext
    exact ⟨_, _, _, rfl, rfl, _, rfl, rfl⟩
  have hend : ¬ EndsInLet program := by
    rintro ⟨t', x, e', hlet⟩
    cases hlast.symm.trans hlet
  have herror (e : RuntimeError) : Value.array [.integer 2, .integer 2] ≠ .error e :=
    Value.noConfusion
  have hshown := shown_by_both hline.1 hline.2 hparse hrun Value.noConfusion herror
  refine ⟨text, program, _, m, htext, hline.1, hline.2, hparse, hrun, Value.noConfusion, herror,
    hshown, hend, ?_⟩
  rw [houtput]
  decide

/-- A program that is left by a `return` before a `let`: the file shows the value, and the session
shows nothing. -/
theorem silent_of_return : ∃ text program m, text = "return 5; let x = 1" ∧
    '\n' ∉ text.toList ∧ '\r' ∉ text.toList ∧ parseStrict text = .ok program ∧
    Eval.run 0 Store.globalScope program .initial = .ok (.integer 5) m ∧
    (run ["five.mk"] (fun _ => .file text) "").stdout = "5\n" ∧
    (run [] (fun _ => .nothing) text).stdout = prompt ++ prompt := by
  refine ⟨_, _, _, rfl, ?_, ?_, rfl, rfl, ?_, ?_⟩
  · decide
  · decide
  · decide +kernel
  · decide +kernel

end CommandLine

end Simian
