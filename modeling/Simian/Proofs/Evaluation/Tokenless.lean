import Simian.Proofs.Evaluation.Akin
import Simian.Proofs.Evaluation.Throughout
import Simian.Proofs.Evaluation.Lockstep
import Simian.Proofs.RoundTrip

/-!
# Running printed programs

Nothing that a run shows depends on a token. A program that is printed and parsed again, or any
other program of its shape, gives a result of the same type and text, prints the same, makes the
same notes and binds the same names to values of the same texts.
-/

namespace Simian

open Value
set_option autoImplicit false

/-- The text of a program that was parsed strictly is parsed strictly to a program of its shape. -/
theorem parseStrict_render {source : String} {program : List Node}
    (h : parseStrict source = .ok program) :
    ∃ again, parseStrict (Node.program program).render = .ok again ∧
      again.map Node.shape = program.map Node.shape := by
  have hderived : Grammar.Statements .ranked (tokenize source).tokens program :=
    Grammar.derived_of_parse (parseStrict_eq_ok_iff.mp h)
  obtain ⟨again, hagain, hshape⟩ :=
    parse_joinStatements (hderived.rereads (tokenize_spelled source).2)
  rw [Node.render]
  exact ⟨again, parseStrict_eq_ok_iff.mpr hagain, hshape⟩

/-- How a value is shown: its type and its text. -/
def Value.face (v : Value) : ValueType × String := (v.type, v.inspect)

theorem Value.Like.face_eq {L : Likeness} {v w : Value} (h : Like L v w) : v.face = w.face :=
  Prod.ext h.type_eq h.inspect_eq

/-- Scopes that stand for each other bind the same names to values that are shown in the same
way. -/
theorem Store.Joined.face_eq {L : Likeness} {s t : Store} {i j : ScopeId} (h : Joined L s t)
    (hs : L.scope i j) (name : String) : (s.own? i name).map face = (t.own? j name).map face := by
  have hown := h.own hs name
  generalize s.own? i name = x, t.own? j name = y at hown
  cases hown with
  | none => rfl
  | some hv => exact congrArg some hv.face_eq

theorem Node.className_eq_of_mapTokens {f : Token → Token} {c d : Node}
    (h : c.mapTokens f = d.mapTokens f) : c.toTree.className = d.toTree.className := by
  have hclass (n : Node) : (n.mapTokens f).toTree.className = n.toTree.className := by
    cases n with
    | returnStatement t value => cases value <;> rfl
    | conditional t c a b => cases b <;> rfl
    | _ => rfl
  rw [← hclass c, ← hclass d, h]

namespace Eval

theorem SameFault.message_eq {L : Likeness} {f g : EvalFault} (h : SameFault L f g) :
    f.message = g.message := by
  cases h with
  | unexpected tree => rfl
  | noStatements hc => exact congrArg ("no statements in " ++ ·) (Node.className_eq_of_mapTokens hc)
  | tooDeep => rfl

/-- How the end of a run is shown: as its value is, or by the message of the fault. -/
def shown : EStateM.Result EvalFault Machine Value → Except String (ValueType × String)
  | .ok v _ => .ok v.face
  | .error f _ => .error f.message

/-- Two runs, the one from `a` and the other one from `b`, show the same, and so do the scopes that
they leave behind. -/
structure ShowSame (ρ : Links) (a b : Machine)
    (r r' : EStateM.Result EvalFault Machine Value) : Prop where
  result : shown r = shown r'
  output : ∃ text, (leaves r).output = a.output ++ text ∧ (leaves r').output = b.output ++ text
  trace : ∃ notes, (leaves r).trace = a.trace ++ notes ∧ (leaves r').trace = b.trace ++ notes
  bindings : ∀ i j, ρ i j → ∀ name,
    ((leaves r).store.own? i name).map face = ((leaves r').store.own? j name).map face
  /-- What is run afterwards shows the same again. -/
  linked : ∃ σ, ρ ≤ σ ∧ Store.Linked σ (leaves r).store (leaves r').store

theorem Alongside.shown_eq {L : Likeness} {v w : Nat} {a b : Machine}
    {r r' : EStateM.Result EvalFault Machine Value} (h : Alongside L v w a b (Like L) r r') :
    shown r = shown r' := by
  cases h with
  | ok _ hx => exact congrArg Except.ok hx.face_eq
  | error _ hf => exact congrArg Except.error hf.message_eq

theorem Alongside.tied {α β : Type} {L : Likeness} {v w : Nat} {a b : Machine}
    {rel : α → β → Prop} {r : EStateM.Result EvalFault Machine α}
    {r' : EStateM.Result EvalFault Machine β} (h : Alongside L v w a b rel r r') :
    Machine.Tied L v w a b (leaves r) (leaves r') := by
  cases h with
  | ok ht _ => exact ht
  | error ht _ => exact ht

variable {ρ : Links} {a b : Machine}

theorem showSame_of_shape (limit verbosity : Nat) {i j : ScopeId} {ss rs : List Node}
    (hs : Store.Linked ρ a.store b.store) (hl : ρ i j)
    (h : ss.map Node.shape = rs.map Node.shape) :
    ShowSame ρ a b (runUpTo limit verbosity i ss a) (runUpTo limit verbosity j rs b) := by
  have hle : ρ ≤ ρ.withLater a.store b.store := ρ.le_withLater _ _
  have hrun := runUpTo_lockstep (L := (ρ.withLater a.store b.store).likeness) (v := verbosity)
    (w := verbosity) limit (hle _ _ hl) h a b (.refl hs.joined fun _ => trivial)
  have htied := hrun.tied
  obtain ⟨notes, htrace⟩ := htied.trace
  exact ⟨hrun.shown_eq, htied.output, ⟨_, htrace⟩, fun _ _ hl => htied.store.face_eq (hle _ _ hl),
    _, hle, htied.store.linked⟩

/-- A run shows the same as that of the program's text, in any scope of any machine. So do the runs
of any two programs of one shape in linked scopes. -/
theorem runs_show_same (limit verbosity : Nat) :
    (∀ source program, parseStrict source = .ok program →
      ∃ again, parseStrict (Node.program program).render = .ok again ∧
        ∀ (id : ScopeId) (m : Machine), ShowSame Eq m m (runUpTo limit verbosity id program m)
          (runUpTo limit verbosity id again m)) ∧
    ∀ (ρ : Links) (a b : Machine) (i j : ScopeId) (program other : List Node),
      Store.Linked ρ a.store b.store → ρ i j →
      (Node.program program).shape = (Node.program other).shape →
      ShowSame ρ a b (runUpTo limit verbosity i program a) (runUpTo limit verbosity j other b) := by
  constructor
  · intro source program h
    obtain ⟨again, hagain, hshape⟩ := parseStrict_render h
    refine ⟨again, hagain, fun id m => ?_⟩
    exact showSame_of_shape limit verbosity (Store.Linked.refl m.store) rfl hshape.symm
  · intro ρ a b i j program other hs hl h
    rw [Node.shape_program, Node.shape_program] at h
    exact showSame_of_shape limit verbosity hs hl (Node.program.inj h)

/-- A function that prints, is called and is shown. The text of the program runs the same on a
machine that has printed before. -/
theorem runs_show_same_printed : ∃ program again,
    parseStrict "let f = fn(x) \x7b puts(x); x \x7d; f(1); f" = .ok program ∧
    parseStrict (Node.program program).render = .ok again ∧
    (leaves (runUpTo 5 3 Store.globalScope program .initial)).output = "1\n" ∧
    ShowSame Eq .initial .initial (runUpTo 5 3 Store.globalScope program .initial)
      (runUpTo 5 3 Store.globalScope again .initial) ∧
    ShowSame Eq .initial ⟨.initial, 7, "0\n", #[]⟩
      (runUpTo 5 3 Store.globalScope program .initial)
      (runUpTo 5 3 Store.globalScope again ⟨.initial, 7, "0\n", #[]⟩) := by
  obtain ⟨program, hprogram, houtput⟩ : ∃ program,
      parseStrict "let f = fn(x) \x7b puts(x); x \x7d; f(1); f" = .ok program ∧
      (leaves (runUpTo 5 3 Store.globalScope program .initial)).output = "1\n" :=
    ⟨_, rfl, by decide +kernel⟩
  obtain ⟨again, hagain, hshape⟩ := parseStrict_render hprogram
  obtain ⟨_, hagain', hsame⟩ := (runs_show_same 5 3).1 _ program hprogram
  cases hagain.symm.trans hagain'
  have hprograms : (Node.program program).shape = (Node.program again).shape := by
    rw [Node.shape_program, Node.shape_program, hshape]
  exact ⟨program, again, hprogram, hagain, houtput, hsame _ _,
    (runs_show_same 5 3).2 Eq _ _ _ _ program again (Store.Linked.refl _) rfl hprograms⟩

end Eval

end Simian
