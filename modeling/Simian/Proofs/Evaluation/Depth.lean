import Simian.Proofs.Evaluation.Faultless

/-!
# How deep calls may nest

A run under a limit differs from one under a higher limit only if it is cut short, and then what it
printed is the beginning of what the other one prints. Two evaluations are compared that differ in
how they carry out calls; whatever the one that is not cut short does afterwards, it only prints
more.
-/

namespace Simian

open Machine
set_option autoImplicit false

/-- The text printed in the second machine begins with that in the first. -/
def Machine.PrintsOn (m n : Machine) : Prop := ∃ text, n.output = m.output ++ text

namespace Machine.PrintsOn

theorem of_output_eq {m n : Machine} (h : n.output = m.output) : PrintsOn m n :=
  ⟨"", by rw [h, String.append_empty]⟩

theorem refl (m : Machine) : PrintsOn m m := of_output_eq rfl

theorem trans {l m n : Machine} (h : PrintsOn l m) (h' : PrintsOn m n) : PrintsOn l n := by
  obtain ⟨s, hs⟩ := h
  obtain ⟨t, ht⟩ := h'
  exact ⟨s ++ t, by rw [ht, hs, String.append_assoc]⟩

end Machine.PrintsOn

namespace Eval

variable {α β : Type}

/-- The second end is what the first one becomes if calls may nest deeper: the same, unless the
first was cut short. -/
inductive Extends : EStateM.Result EvalFault Machine α → EStateM.Result EvalFault Machine α → Prop
    where
  | same (r : EStateM.Result EvalFault Machine α) : Extends r r
  | short {m : Machine} {r : EStateM.Result EvalFault Machine α} : PrintsOn m (leaves r) →
      Extends (.error .tooDeep m) r

/-- The action takes back nothing that was printed. -/
def Prints (p : EvalM α) : Prop := ∀ m, PrintsOn m (leaves (p m))

/-- The second action does what the first one does, until the first is cut short. -/
structure Deepens (p q : EvalM α) : Prop where
  prints : Prints q
  extended : ∀ m, Extends (p m) (q m)

theorem Prints.deepens {p : EvalM α} (h : Prints p) : Deepens p p := ⟨h, fun m => .same (p m)⟩

theorem deepens_tooDeep {q : EvalM α} (h : Prints q) : Deepens (throw .tooDeep) q :=
  ⟨h, fun m => .short (h m)⟩

/-! ## Sequences and single steps -/

theorem Prints.andThen {p : EvalM α} {f : α → EvalM β} {m m' : Machine}
    (hp : PrintsOn m' (leaves (p m))) (hf : ∀ a, Prints (f a)) :
    PrintsOn m' (leaves ((p >>= f) m)) := by
  cases hx : p m with
  | ok a n =>
    rw [hx] at hp
    rw [bind_of_ok hx]
    exact hp.trans (hf a n)
  | error e n =>
    rw [hx] at hp
    rw [bind_of_error hx]
    exact hp

theorem Deepens.andThen {p q : EvalM α} {f g : α → EvalM β} (h : Deepens p q)
    (hf : ∀ a, Deepens (f a) (g a)) : Deepens (p >>= f) (q >>= g) := by
  refine ⟨fun m => Prints.andThen (h.prints m) fun a => (hf a).prints, fun m => ?_⟩
  have hm := h.extended m
  generalize hx : p m = x at hm
  cases hm with
  | same =>
    generalize hy : q m = y at hx
    cases y with
    | ok a n =>
      rw [bind_of_ok hx, bind_of_ok hy]
      exact (hf a).extended n
    | error e n =>
      rw [bind_of_error hx, bind_of_error hy]
      exact .same _
  | short hprints =>
    rw [bind_of_error hx]
    exact .short (Prints.andThen hprints fun a => (hf a).prints)

theorem Deepens.unless {p q : EvalM Value} {f g : Value → EvalM Value} (h : Deepens p q)
    (hf : ∀ v, Deepens (f v) (g v)) :
    Deepens (p >>= fun v => unlessSignal v (f v)) (q >>= fun v => unlessSignal v (g v)) := by
  apply h.andThen
  intro v
  unfold unlessSignal
  split
  · exact ⟨fun m => .refl m, fun m => .same _⟩
  · exact hf v

theorem deepens_pure (a : α) : Deepens (pure a) (pure a) := Prints.deepens fun m => .refl m

theorem deepens_throw (f : EvalFault) : Deepens (throw f : EvalM α) (throw f) :=
  Prints.deepens fun m => .refl m

theorem deepens_note (verbosity level : Nat) (text : Unit → String) :
    Deepens (note verbosity level text) (note verbosity level text) :=
  Prints.deepens fun m => by
    rw [note_eq]
    exact .of_output_eq rfl

theorem deepens_print (text : String) : Deepens (print text) (print text) :=
  Prints.deepens fun _ => ⟨text, rfl⟩

theorem deepens_lookup (id : ScopeId) (name : String) :
    Deepens (lookup id name) (lookup id name) := Prints.deepens fun m => .refl m

theorem deepens_bind (id : ScopeId) (name : String) (v : Value) :
    Deepens (bind id name v) (bind id name v) := Prints.deepens fun _ => .of_output_eq rfl

theorem deepens_bindAll (id : ScopeId) (ps : List (String × Value)) :
    Deepens (bindAll id ps) (bindAll id ps) := by
  induction ps with
  | nil => exact deepens_pure ()
  | cons p ps ih => exact (deepens_bind id p.1 p.2).andThen fun _ => ih

theorem deepens_newScope (id : ScopeId) : Deepens (newScope id) (newScope id) :=
  Prints.deepens fun _ => .of_output_eq rfl

theorem deepens_newFunction (ps : List String) (code : Node) (id : ScopeId) :
    Deepens (newFunction ps code id) (newFunction ps code id) :=
  Prints.deepens fun _ => .of_output_eq rfl

theorem deepens_identifier (scope : ScopeId) (name : String) :
    Deepens (identifier scope name) (identifier scope name) := by
  apply (deepens_lookup scope name).andThen
  intro o
  cases o with
  | some v => exact deepens_pure v
  | none => cases Builtin.ofName? name <;> exact deepens_pure _

theorem deepens_index (verbosity : Nat) (c i : Value) :
    Deepens (index verbosity c i) (index verbosity c i) := by
  unfold index
  split
  · exact deepens_pure _
  · exact (deepens_note _ _ _).andThen fun _ => deepens_pure _

/-! ## Constructs -/

def DeepensCalls (call call' : Caller) : Prop := ∀ f args, Deepens (call f args) (call' f args)

section
variable {verbosity : Nat} {call call' : Caller}

mutual

theorem node_deepens (hcall : DeepensCalls call call') (scope : ScopeId) : ∀ n : Node,
    Deepens (node verbosity call scope n) (node verbosity call' scope n)
  | .program ss => by
    rw [node, node]
    exact (statements_deepens hcall scope .null ss).andThen fun _ => deepens_pure _
  | .letStatement _ name value => by
    rw [node, node]
    apply (node_deepens hcall scope value).unless
    intro v
    apply (deepens_bind scope name.name v).andThen
    intro _
    exact (deepens_note _ _ _).andThen fun _ => deepens_pure _
  | .returnStatement _ none => by
    rw [node, node]
    exact deepens_pure _
  | .returnStatement _ (some value) => by
    rw [node, node]
    exact (node_deepens hcall scope value).unless fun _ => deepens_pure _
  | .expressionStatement _ e => by
    rw [node, node]
    exact node_deepens hcall scope e
  | .block _ ss => by
    rw [node, node]
    exact statements_deepens hcall scope .null ss
  | .ident name => by
    rw [node, node]
    exact deepens_identifier scope name.name
  | .integer _ n => by
    rw [node, node]
    exact deepens_pure _
  | .string _ s => by
    rw [node, node]
    exact deepens_pure _
  | .boolean _ b => by
    rw [node, node]
    exact deepens_pure _
  | .array _ es => by
    rw [node, node]
    apply (expressions_deepens hcall scope es).andThen
    intro r
    cases r <;> exact deepens_pure _
  | .prefixOp _ op e => by
    rw [node, node]
    exact (node_deepens hcall scope e).unless fun _ => deepens_pure _
  | .infixOp _ op left right => by
    rw [node, node]
    apply (node_deepens hcall scope left).unless
    intro l
    exact (node_deepens hcall scope right).unless fun _ => deepens_pure _
  | .conditional _ condition consequence none => by
    rw [node, node]
    apply (node_deepens hcall scope condition).unless
    intro c
    apply (deepens_note _ _ _).andThen
    intro _
    split
    · exact node_deepens hcall scope consequence
    · exact deepens_pure _
  | .conditional _ condition consequence (some alternative) => by
    rw [node, node]
    apply (node_deepens hcall scope condition).unless
    intro c
    apply (deepens_note _ _ _).andThen
    intro _
    split
    · exact node_deepens hcall scope consequence
    · exact node_deepens hcall scope alternative
  | .function _ parameters body => by
    rw [node, node]
    exact deepens_newFunction _ body scope
  | .call _ callee arguments => by
    rw [node, node]
    apply (node_deepens hcall scope callee).unless
    intro f
    apply (expressions_deepens hcall scope arguments).andThen
    intro r
    cases r with
    | error signal => exact deepens_pure signal
    | ok args => exact hcall f args
  | .index _ collection position => by
    rw [node, node]
    apply (node_deepens hcall scope collection).unless
    intro c
    exact (node_deepens hcall scope position).unless fun i => deepens_index verbosity c i
  | .datum tree => by
    rw [node, node]
    exact deepens_throw _

theorem statements_deepens (hcall : DeepensCalls call call') (scope : ScopeId) (last : Value) :
    ∀ ss : List Node,
    Deepens (statements verbosity call scope last ss) (statements verbosity call' scope last ss)
  | [] => by
    rw [statements, statements]
    exact deepens_pure last
  | s :: ss => by
    rw [statements, statements]
    exact (node_deepens hcall scope s).unless fun v => statements_deepens hcall scope v ss

theorem expressions_deepens (hcall : DeepensCalls call call') (scope : ScopeId) : ∀ es : List Node,
    Deepens (expressions verbosity call scope es) (expressions verbosity call' scope es)
  | [] => by
    rw [expressions, expressions]
    exact deepens_pure _
  | e :: es => by
    rw [expressions, expressions]
    apply (node_deepens hcall scope e).andThen
    intro v
    split
    · exact deepens_pure _
    · apply (expressions_deepens hcall scope es).andThen
      intro r
      cases r <;> exact deepens_pure _

end

theorem body_deepens (hcall : DeepensCalls call call') (inner : ScopeId) (code : Node) :
    Deepens (body verbosity call inner code) (body verbosity call' inner code) := by
  unfold body
  cases code.statements? with
  | some ss => exact statements_deepens hcall inner .null ss
  | none => exact deepens_throw _

end

/-! ## Calls and runs -/

section
variable {verbosity : Nat}

theorem apply_deepens {run run' : ScopeId → Node → EvalM Value}
    (h : ∀ inner code, Deepens (run inner code) (run' inner code)) :
    DeepensCalls (apply verbosity run) (apply verbosity run') := by
  intro f args
  cases f with
  | function k ps code scope =>
    rw [apply, apply]
    split
    · exact deepens_pure _
    · apply (deepens_note _ _ _).andThen
      intro _
      apply (deepens_newScope scope).andThen
      intro inner
      apply (deepens_bindAll inner _).andThen
      intro _
      exact (h inner code).andThen fun _ => deepens_pure _
  | builtin b =>
    rw [apply, apply]
    split
    · apply (deepens_note _ _ _).andThen
      intro _
      exact (deepens_print _).andThen fun _ => deepens_pure _
    · exact deepens_pure _
  | _ => exact deepens_pure _

theorem callUpTo_deepens_self (n : Nat) :
    DeepensCalls (callUpTo verbosity n) (callUpTo verbosity n) := by
  induction n with
  | zero => exact apply_deepens fun _ _ => deepens_throw _
  | succ n ih => exact apply_deepens (body_deepens ih)

theorem callUpTo_deepens {n k : Nat} (h : n ≤ k) :
    DeepensCalls (callUpTo verbosity n) (callUpTo verbosity k) := by
  induction n generalizing k with
  | zero =>
    cases k with
    | zero => exact callUpTo_deepens_self 0
    | succ k =>
      apply apply_deepens
      intro inner code
      exact deepens_tooDeep (body_deepens (callUpTo_deepens_self k) inner code).prints
  | succ n ih =>
    obtain ⟨k, rfl⟩ := Nat.exists_eq_add_of_lt h
    exact apply_deepens (body_deepens (ih (Nat.le_add_right n k)))

theorem leaves_settleDepth (p : EvalM Value) (m : Machine) :
    leaves (settleDepth p m) = leaves (p m) := by
  unfold settleDepth
  split
  · next h => rw [h]; rfl
  · rfl

/-- What is said after a run, of a result that is already settled. -/
theorem settleDepth_of_extends {p q : EvalM Value} {f : Value → EvalM Value} {m : Machine}
    (h : Extends (p m) (q m))
    (hf : ∀ v n, ∃ n', f v n = .ok v n' ∧ n'.output = n.output) :
    (settleDepth p >>= f) m = (settleDepth q >>= f) m ∨
      ∃ m', (settleDepth p >>= f) m = .ok (.error .tooDeep) m' ∧
        PrintsOn m' (leaves ((settleDepth q >>= f) m)) := by
  have hprints (v : Value) : Prints (f v) := by
    intro n
    obtain ⟨n', hn, hout⟩ := hf v n
    rw [hn]
    exact .of_output_eq hout
  generalize hp : p m = r at h
  cases h with
  | same =>
    left
    apply bind_congr_at
    rw [settleDepth, settleDepth, hp]
  | @short n _ hn =>
    right
    have hsettled : settleDepth p m = .ok (.error .tooDeep) n := by rw [settleDepth, hp]
    obtain ⟨n', hn', hout⟩ := hf (.error .tooDeep) n
    refine ⟨n', by rw [bind_of_ok hsettled, hn'], ?_⟩
    apply Prints.andThen _ hprints
    rw [leaves_settleDepth]
    exact (PrintsOn.of_output_eq hout.symm).trans hn

/-- A run does what it does under a lower limit, unless that cuts it short, and then it has printed
a beginning of what it prints. -/
theorem runUpTo_of_le {n k : Nat} (h : n ≤ k) (id : ScopeId) (program : List Node) (m : Machine) :
    runUpTo n verbosity id program m = runUpTo k verbosity id program m ∨
      ∃ m', runUpTo n verbosity id program m = .ok (.error .tooDeep) m' ∧
        PrintsOn m' (leaves (runUpTo k verbosity id program m)) := by
  have hdeepens : Deepens (statements verbosity (callUpTo verbosity n) id .null program)
      (statements verbosity (callUpTo verbosity k) id .null program) :=
    statements_deepens (callUpTo_deepens h) id .null program
  have hunwrapped := hdeepens.andThen fun v => deepens_pure v.unwrapped
  unfold runUpTo
  rw [bind_of_ok (note_eq _ _ _ _), bind_of_ok (note_eq _ _ _ _)]
  apply settleDepth_of_extends (hunwrapped.extended _)
  intro v n
  exact ⟨_, bind_of_ok (note_eq _ _ _ _), rfl⟩

/-- A limit on nested calls only cuts a run short. Evaluation begins no parts inside one another
without end. A parsed program, in scopes with functions from sources, runs to a value under every
limit. If the value under a limit is not that calls nested too deep, then the run is the same under
every higher limit, and so are its output, its trace and its scopes; and if it is, what was printed
is a beginning of what is printed under a higher limit. -/
theorem limit_cuts_short {source : String} {parsed : Parsed} (hp : parse source = .ok parsed)
    (id : ScopeId) (m : Machine) {n k : Nat} (h : n ≤ k) :
    WellFounded (fun q p => Begins verbosity p q) ∧
    (m.store.Holds FromSource →
      ∀ limit, ∃ v m', runUpTo limit verbosity id parsed.statements m = .ok v m') ∧
    ((∀ m', runUpTo n verbosity id parsed.statements m ≠ .ok (.error .tooDeep) m') →
      runUpTo k verbosity id parsed.statements m = runUpTo n verbosity id parsed.statements m) ∧
    ∀ m', runUpTo n verbosity id parsed.statements m = .ok (.error .tooDeep) m' →
      ∃ text, (leaves (runUpTo k verbosity id parsed.statements m)).output = m'.output ++ text := by
  refine ⟨begins_wellFounded verbosity, fun hm limit => ?_, fun hne => ?_, fun m' hm' => ?_⟩
  · exact exists_runUpTo_ok hm hp limit id
  · rcases runUpTo_of_le h id parsed.statements m with heq | ⟨m', hm', -⟩
    · exact heq.symm
    · exact absurd hm' (hne m')
  · rcases runUpTo_of_le h id parsed.statements m with heq | ⟨n', hn', hprints⟩
    · rw [← heq, hm']
      exact PrintsOn.refl m'
    · rw [hn'] at hm'
      cases hm'
      exact hprints

/-- A function without end is cut short under both limits, later under the higher one. -/
theorem limit_cuts_short_endless : ∃ parsed m',
    parse "let f = fn(n) \x7b puts(n); f(n + 1) \x7d; f(0)" = .ok parsed ∧ 1 ≤ 2 ∧
    runUpTo 1 0 Store.globalScope parsed.statements Machine.initial = .ok (.error .tooDeep) m' ∧
    m'.output = "0\n" ∧
    ∃ text, (leaves (runUpTo 2 0 Store.globalScope parsed.statements Machine.initial)).output =
      m'.output ++ text := by
  obtain ⟨parsed, hp, ⟨m', hm'⟩, hout⟩ : ∃ parsed,
      parse "let f = fn(n) \x7b puts(n); f(n + 1) \x7d; f(0)" = .ok parsed ∧
      (∃ m', runUpTo 1 0 Store.globalScope parsed.statements Machine.initial =
        .ok (.error .tooDeep) m') ∧
      (leaves (runUpTo 1 0 Store.globalScope parsed.statements Machine.initial)).output = "0\n" :=
    ⟨_, rfl, ⟨_, rfl⟩, by decide +kernel⟩
  rw [hm'] at hout
  have hle : 1 ≤ 2 := by decide
  obtain ⟨-, -, -, hcut⟩ := limit_cuts_short hp Store.globalScope Machine.initial hle
  exact ⟨parsed, m', hp, hle, hm', hout, hcut m' hm'⟩

end

end Eval

end Simian
