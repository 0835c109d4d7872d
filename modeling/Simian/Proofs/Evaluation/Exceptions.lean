import Simian.Parser
import Simian.Proofs.Evaluation.Raising
import Simian.Proofs.Evaluation.SignalFree
import Simian.Proofs.Steps

/-!
# Signals are exceptions

Evaluation, which hands signals on as values, does what evaluation with exceptions does. Where the
one gives a signal the other one has raised it, at the same point and with the same effects before
it; where the one gives a value without signals the other one gives the same value. It takes that
no value that can be looked up holds a signal, which every step preserves.
-/

namespace Simian.Raising

open Machine
set_option autoImplicit false

/-- The signal that stands for what is raised. -/
inductive Stands : Value → Raised → Prop where
  | returned {v : Value} : v.SignalFree → Stands (.returned v) (.returned v)
  | error {e : RuntimeError} : Stands (.error e) (.error e)

/-- An evaluation that hands signals on ends as the one that raises them does. Its result is that
of the other one or else a signal, put into one type by `keep`. -/
inductive Agree {α β : Type} (keep : Except Value α → β) (good : α → Prop) :
    EStateM.Result EvalFault Machine β → EStateM.Result Raised Machine α → Prop where
  | value {a : α} {m : Machine} : good a → m.store.SignalFree →
      Agree keep good (.ok (keep (.ok a)) m) (.ok a m)
  | raised {s : Value} {r : Raised} {m : Machine} : Stands s r → m.store.SignalFree →
      Agree keep good (.ok (keep (.error s)) m) (.error r m)
  | tooDeep {m : Machine} : Agree keep good (.error .tooDeep m) (.error (.error .tooDeep) m)
  | fault {f : EvalFault} {m : Machine} : f ≠ .tooDeep →
      Agree keep good (.error f m) (.error (.fault f) m)

/-- The two evaluations agree from every machine without signals in its scopes. -/
def Simulates {α β : Type} (keep : Except Value α → β) (good : α → Prop) (p : EvalM β)
    (q : RaiseM α) : Prop := ∀ m : Machine, m.store.SignalFree → Agree keep good (p m) (q m)

/-- A value and a signal are both values. -/
def either : Except Value Value → Value
  | .ok v => v
  | .error s => s

abbrev SimulatesValue : EvalM Value → RaiseM Value → Prop := Simulates either Value.SignalFree

abbrev SimulatesList : EvalM (Except Value (List Value)) → RaiseM (List Value) → Prop :=
  Simulates id fun vs => ∀ v ∈ vs, v.SignalFree

/-- The action never fails and keeps signals out of the scopes. -/
def Safe {α : Type} (good : α → Prop) (p : EvalM α) : Prop :=
  ∀ m : Machine, m.store.SignalFree → ∃ a m', p m = .ok a m' ∧ m'.store.SignalFree ∧ good a

theorem Stands.isSignal {s : Value} {r : Raised} (h : Stands s r) : s.isSignal = true := by
  cases h <;> rfl

/-! ## Rules -/

section
variable {α β γ δ : Type} {keep : Except Value α → β} {keep' : Except Value γ → δ}
  {good : α → Prop} {good' : γ → Prop} {p : EvalM β} {q : RaiseM α}

theorem Simulates.andThen {f : β → EvalM δ} {g : α → RaiseM γ} (h : Simulates keep good p q)
    (hv : ∀ a, good a → Simulates keep' good' (f (keep (.ok a))) (g a))
    (hs : ∀ s, s.isSignal = true → f (keep (.error s)) = pure (keep' (.error s))) :
    Simulates keep' good' (p >>= f) (q >>= g) := by
  intro m hm
  have hpq := h m hm
  generalize hp : p m = x, hq : q m = y at hpq
  cases hpq with
  | value ha hm' =>
    rw [bind_of_ok hp, bind_of_ok hq]
    exact hv _ ha _ hm'
  | raised hr hm' =>
    rw [bind_of_ok hp, bind_of_error hq, hs _ hr.isSignal]
    exact .raised hr hm'
  | tooDeep =>
    rw [bind_of_error hp, bind_of_error hq]
    exact .tooDeep
  | fault hf =>
    rw [bind_of_error hp, bind_of_error hq]
    exact .fault hf

theorem Simulates.value {a : α} (ha : good a) :
    Simulates keep good (pure (keep (.ok a))) (pure a) :=
  fun _ hm => .value ha hm

theorem Simulates.raised {s : Value} {r : Raised} (h : Stands s r) :
    Simulates keep good (pure (keep (.error s))) (throw r) :=
  fun _ hm => .raised h hm

theorem Simulates.acting {ε : Type} {safe : ε → Prop} {x : EvalM ε} {f : ε → EvalM β}
    {g : ε → RaiseM α} (hx : Safe safe x) (h : ∀ a, safe a → Simulates keep good (f a) (g a)) :
    Simulates keep good (x >>= f) (act x >>= g) := by
  intro m hm
  obtain ⟨a, m', hxm, hm', ha⟩ := hx m hm
  have hact : act x m = .ok a m' := by rw [act, hxm]
  rw [bind_of_ok hxm, bind_of_ok hact]
  exact h a ha m' hm'

end

theorem Simulates.action {p : EvalM Value} (h : Safe Value.SignalFree p) :
    SimulatesValue p (act p) := by
  intro m hm
  obtain ⟨v, m', hpm, hm', hv⟩ := h m hm
  rw [act, hpm]
  exact .value hv hm'

section
variable {p : EvalM Value} {q : RaiseM Value}

/-- A part that is evaluated before the rest, which a signal leaves out. -/
theorem Simulates.unless {k : Value → EvalM Value} {g : Value → RaiseM Value}
    (h : SimulatesValue p q) (hk : ∀ v, v.SignalFree → SimulatesValue (k v) (g v)) :
    SimulatesValue (p >>= fun v => Eval.unlessSignal v (k v)) (q >>= g) := by
  refine h.andThen (fun v hv => ?_) fun s hs => if_pos hs
  change SimulatesValue (Eval.unlessSignal v (k v)) (g v)
  rw [Eval.unlessSignal, hv.isSignal]
  exact hk v hv

theorem simulates_settle {v : Value} (h : v.Settled) : SimulatesValue (pure v) (settle v) := by
  cases h with
  | value hv =>
    have hs : settle v = pure v := by
      cases v with
      | error e => exact absurd hv (Value.not_signalFree_error e)
      | _ => rfl
    rw [hs]
    exact .value hv
  | error => exact .raised .error

/-- A `return` is caught where it is unwrapped. -/
theorem Simulates.unwrapped (h : SimulatesValue p q) :
    SimulatesValue (do return (← p).unwrapped) (catchReturned q) := by
  intro m hm
  have hpq := h m hm
  unfold catchReturned
  generalize hp : p m = x, q m = y at hpq
  cases hpq with
  | @value v m' hv hm' =>
    rw [bind_of_ok hp]
    change Agree either _ (.ok v.unwrapped m') (.ok v m')
    rw [Value.unwrapped_of_not_isSignal hv.isSignal]
    exact .value hv hm'
  | raised hr hm' =>
    rw [bind_of_ok hp]
    cases hr with
    | returned hv => exact .value hv hm'
    | error => exact .raised .error hm'
  | tooDeep =>
    rw [bind_of_error hp]
    exact .tooDeep
  | fault hf =>
    rw [bind_of_error hp]
    exact .fault hf

end

/-! ## Actions -/

section
variable {v : Value} {id : ScopeId} {name : String}

theorem safe_note (verbosity level : Nat) (text : Unit → String) :
    Safe (fun _ => True) (note verbosity level text) := by
  intro m hm
  unfold note
  split
  · exact ⟨_, _, rfl, hm, trivial⟩
  · exact ⟨_, _, rfl, hm, trivial⟩

theorem safe_print (text : String) : Safe (fun _ => True) (print text) :=
  fun _ hm => ⟨_, _, rfl, hm, trivial⟩

theorem safe_lookup : Safe (fun o => ∀ v ∈ o, v.SignalFree) (lookup id name) :=
  fun _ hm => ⟨_, _, rfl, hm, fun _ hv => hm.get? hv⟩

theorem safe_bind (hv : v.SignalFree) : Safe (fun _ => True) (bind id name v) :=
  fun _ hm => ⟨_, _, rfl, hm.set hv, trivial⟩

theorem safe_bindAll {ps : List (String × Value)} (h : ∀ p ∈ ps, p.2.SignalFree) :
    Safe (fun _ => True) (bindAll id ps) := by
  induction ps with
  | nil => exact fun _ hm => ⟨_, _, rfl, hm, trivial⟩
  | cons p ps ih =>
    intro m hm
    exact ih (fun q hq => h q (List.mem_cons_of_mem p hq)) _ (hm.set (h p List.mem_cons_self))

theorem safe_newScope : Safe (fun _ => True) (newScope id) :=
  fun _ hm => ⟨_, _, rfl, hm.addScope _, trivial⟩

theorem safe_newFunction (ps : List String) (body : Node) :
    Safe Value.SignalFree (newFunction ps body id) :=
  fun _ hm => ⟨_, _, rfl, hm, Value.signalFree_function _ _ _ _⟩

end

/-! ## Constructs -/

theorem identifier_simulates (scope : ScopeId) (name : String) :
    SimulatesValue (Eval.identifier scope name) (identifier scope name) := by
  apply Simulates.acting safe_lookup
  intro o ho
  cases o with
  | some v => exact .value (ho v rfl)
  | none =>
    cases Builtin.ofName? name with
    | some b => exact .value (Value.signalFree_builtin b)
    | none => exact .raised .error

theorem index_simulates (verbosity : Nat) {c : Value} (hc : c.SignalFree) (i : Value) :
    SimulatesValue (Eval.index verbosity c i) (index verbosity c i) := by
  unfold Eval.index index
  cases h : Value.indexOperands c i with
  | error e => exact .raised .error
  | ok p =>
    obtain ⟨es, n⟩ := p
    refine .acting (safe_note _ _ _) fun _ _ => .value ?_
    obtain rfl := Value.eq_array_of_indexOperands h
    exact Value.elementAt_of Value.signalFree_null (Value.signalFree_array.mp hc) n

def SimulatesCalls (call : Caller) (raising : Value → List Value → RaiseM Value) : Prop :=
  ∀ f args, f.SignalFree → (∀ a ∈ args, a.SignalFree) →
    SimulatesValue (call f args) (raising f args)

section
variable {verbosity : Nat} {call : Caller} {raising : Value → List Value → RaiseM Value}

mutual

theorem node_simulates (hcall : SimulatesCalls call raising) (scope : ScopeId) : ∀ n : Node,
    SimulatesValue (Eval.node verbosity call scope n) (node verbosity raising scope n)
  | .program ss => by
    rw [Eval.node, node]
    exact (statements_simulates hcall scope Value.signalFree_null ss).unwrapped
  | .letStatement _ name value => by
    rw [Eval.node, node]
    apply (node_simulates hcall scope value).unless
    intro v hv
    refine .acting (safe_bind hv) fun _ _ => .acting (safe_note _ _ _) fun _ _ => ?_
    exact .value Value.signalFree_null
  | .returnStatement _ none => by
    rw [Eval.node, node]
    exact .raised (.returned Value.signalFree_null)
  | .returnStatement _ (some value) => by
    rw [Eval.node, node]
    exact (node_simulates hcall scope value).unless fun v hv => .raised (.returned hv)
  | .expressionStatement _ e => by
    rw [Eval.node, node]
    exact node_simulates hcall scope e
  | .block _ ss => by
    rw [Eval.node, node]
    exact statements_simulates hcall scope Value.signalFree_null ss
  | .ident name => by
    rw [Eval.node, node]
    exact identifier_simulates scope name.name
  | .integer _ n => by
    rw [Eval.node, node]
    exact .value (Value.signalFree_integer n)
  | .string _ s => by
    rw [Eval.node, node]
    exact .value (Value.signalFree_string s)
  | .boolean _ b => by
    rw [Eval.node, node]
    exact .value (Value.signalFree_boolean b)
  | .array _ es => by
    rw [Eval.node, node]
    refine (expressions_simulates hcall scope es).andThen (fun vs hvs => ?_) fun s hs => rfl
    exact .value (Value.signalFree_array.mpr hvs)
  | .prefixOp _ op e => by
    rw [Eval.node, node]
    exact (node_simulates hcall scope e).unless fun v hv => simulates_settle (v.prefixOp_settled op)
  | .infixOp _ op left right => by
    rw [Eval.node, node]
    apply (node_simulates hcall scope left).unless
    intro l hl
    apply (node_simulates hcall scope right).unless
    intro r hr
    exact simulates_settle (Value.infixOp_settled op l r)
  | .conditional _ condition consequence none => by
    rw [Eval.node, node]
    apply (node_simulates hcall scope condition).unless
    intro c hc
    refine .acting (safe_note _ _ _) fun _ _ => ?_
    split
    · exact node_simulates hcall scope consequence
    · exact .value Value.signalFree_null
  | .conditional _ condition consequence (some alternative) => by
    rw [Eval.node, node]
    apply (node_simulates hcall scope condition).unless
    intro c hc
    refine .acting (safe_note _ _ _) fun _ _ => ?_
    split
    · exact node_simulates hcall scope consequence
    · exact node_simulates hcall scope alternative
  | .function _ parameters body => by
    rw [Eval.node, node]
    exact .action (safe_newFunction _ body)
  | .call _ callee arguments => by
    rw [Eval.node, node]
    apply (node_simulates hcall scope callee).unless
    intro f hf
    exact (expressions_simulates hcall scope arguments).andThen
      (fun args hargs => hcall f args hf hargs) fun s hs => rfl
  | .index _ collection position => by
    rw [Eval.node, node]
    apply (node_simulates hcall scope collection).unless
    intro c hc
    exact (node_simulates hcall scope position).unless fun i hi => index_simulates verbosity hc i
  | .datum tree => by
    rw [Eval.node, node]
    exact fun _ _ => .fault (fun h => nomatch h)

theorem statements_simulates (hcall : SimulatesCalls call raising) (scope : ScopeId)
    {last : Value} (hlast : last.SignalFree) : ∀ ss : List Node,
    SimulatesValue (Eval.statements verbosity call scope last ss)
      (statements verbosity raising scope last ss)
  | [] => by
    rw [Eval.statements, statements]
    exact .value hlast
  | s :: ss => by
    rw [Eval.statements, statements]
    exact (node_simulates hcall scope s).unless fun v hv => statements_simulates hcall scope hv ss

theorem expressions_simulates (hcall : SimulatesCalls call raising) (scope : ScopeId) :
    ∀ es : List Node, SimulatesList (Eval.expressions verbosity call scope es)
      (expressions verbosity raising scope es)
  | [] => by
    rw [Eval.expressions, expressions]
    exact .value fun _ hv => absurd hv List.not_mem_nil
  | e :: es => by
    rw [Eval.expressions, expressions]
    refine (node_simulates hcall scope e).andThen (fun v hv => ?_) fun s hs => if_pos hs
    change Simulates id _ (if v.isSignal = true then _ else _) _
    rw [if_neg (Bool.eq_false_iff.mp hv.isSignal)]
    refine (expressions_simulates hcall scope es).andThen (fun vs hvs => ?_) fun s hs => rfl
    exact .value (List.forall_mem_cons.mpr ⟨hv, hvs⟩)

end

/-! ## Calls -/

theorem body_simulates (hcall : SimulatesCalls call raising) (scope : ScopeId) (code : Node) :
    SimulatesValue (Eval.body verbosity call scope code) (body verbosity raising scope code) := by
  unfold Eval.body body
  cases code.statements? with
  | some ss => exact statements_simulates hcall scope Value.signalFree_null ss
  | none => exact fun _ _ => .fault (fun h => nomatch h)

theorem apply_simulates {run : ScopeId → Node → EvalM Value} {run' : ScopeId → Node → RaiseM Value}
    (h : ∀ scope code, SimulatesValue (run scope code) (run' scope code)) :
    SimulatesCalls (Eval.apply verbosity run) (apply verbosity run') := by
  intro f args hf hargs
  cases f with
  | function id parameters code scope =>
    rw [Eval.apply, apply]
    split
    · exact .raised .error
    · refine .acting (safe_note _ _ _) fun _ _ => .acting safe_newScope fun inner _ => ?_
      refine .acting (safe_bindAll fun p hp => ?_) fun _ _ => (h inner code).unwrapped
      exact hargs p.2 (List.of_mem_zip hp).2
  | builtin b =>
    rw [Eval.apply, apply]
    split
    · refine .acting (safe_note _ _ _) fun _ _ => .acting (safe_print _) fun _ _ => ?_
      exact simulates_settle (b.result_settled hargs)
    · exact .raised .error
  | _ => exact .raised .error

theorem callUpTo_simulates (limit : Nat) :
    SimulatesCalls (Eval.callUpTo verbosity limit) (callUpTo verbosity limit) := by
  induction limit with
  | zero => exact apply_simulates fun _ _ _ _ => .tooDeep
  | succ n ih => exact apply_simulates (body_simulates ih)

end

theorem settleDepth_eq_catchAll {p : EvalM Value} {q : RaiseM Value} (h : SimulatesValue p q)
    {m : Machine} (hm : m.store.SignalFree) :
    Eval.settleDepth (do return (← p).unwrapped) m = catchAll q m := by
  have hpq := h m hm
  unfold Eval.settleDepth catchAll
  generalize hp : p m = x, q m = y at hpq
  cases hpq with
  | value hv =>
    rw [bind_of_ok hp]
    exact congrArg (EStateM.Result.ok · _) (Value.unwrapped_of_not_isSignal hv.isSignal)
  | raised hr =>
    rw [bind_of_ok hp]
    cases hr <;> rfl
  | tooDeep => rw [bind_of_error hp]
  | @fault f m' hf =>
    rw [bind_of_error hp]
    cases f with
    | tooDeep => exact absurd rfl hf
    | _ => rfl

/-- A run hands signals on and gives what a run with exceptions gives: the same value, printed
text, trace and bindings, as long as no scope it starts from holds a signal. -/
theorem runUpTo_eq_raising (limit verbosity : Nat) (scope : ScopeId) (program : List Node)
    {m : Machine} (hm : m.store.SignalFree) :
    Eval.runUpTo limit verbosity scope program m = runUpTo limit verbosity scope program m := by
  have hss : SimulatesValue (Eval.statements verbosity (Eval.callUpTo verbosity limit) scope .null
      program) (statements verbosity (callUpTo verbosity limit) scope .null program) :=
    statements_simulates (callUpTo_simulates limit) scope Value.signalFree_null program
  obtain ⟨_, m', hn, hm', -⟩ := safe_note verbosity 1
    (fun _ => "run program with " ++ toString program.length ++ " statement(s)") m hm
  unfold Eval.runUpTo runUpTo
  rw [bind_of_ok hn, bind_of_ok hn]
  change EStateM.bind _ _ m' = EStateM.bind _ _ m'
  unfold EStateM.bind
  rw [settleDepth_eq_catchAll hss hm']

/-- A `return` inside an operand leaves its function, and an error inside one leaves the program. -/
theorem runUpTo_eq_raising_operands :
    Machine.initial.store.SignalFree ∧ ∃ program, parseStrict
        "let f = fn(x) \x7b 1 + [if (x) \x7b return 3 \x7d][0] \x7d; f(true); puts(f(false))" =
          .ok program ∧
      Eval.runUpTo 5 0 Store.globalScope program Machine.initial =
        runUpTo 5 0 Store.globalScope program Machine.initial :=
  ⟨Store.signalFree_initial, _, by rfl, runUpTo_eq_raising 5 0 _ _ Store.signalFree_initial⟩

end Simian.Raising
