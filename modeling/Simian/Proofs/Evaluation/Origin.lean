import Simian.Proofs.Evaluation.Ending
import Simian.Proofs.Evaluation.Frame
import Simian.Proofs.Evaluation.Unstored

/-!
# Where an error comes from

A run that ends with an error leaves everything as it was at the origin of the error, a point where
a task fails though none of its parts does. Such a task only puts together what its parts gave and
binds nothing of its own in a scope that existed.
-/

namespace Simian

open Machine Value
set_option autoImplicit false

namespace Eval

variable {verbosity : Nat}

/-- The task at a point fails though no part of it does. -/
structure Origin (verbosity : Nat) (p : Point) : Prop where
  fails : (ending verbosity p).Fails
  parts : ∀ q, Begins verbosity p q → ¬ (ending verbosity q).Fails

/-- What fails has an origin inside. -/
theorem exists_origin {p : Point} (h : (ending verbosity p).Fails) :
    ∃ q, Reached verbosity p q ∧ Origin verbosity q := by
  induction p using (begins_wellFounded verbosity).induction with
  | _ p ih =>
    by_cases hparts : ∃ q, Begins verbosity p q ∧ (ending verbosity q).Fails
    · obtain ⟨r, hr, hfails⟩ := hparts
      obtain ⟨q, hq, horigin⟩ := ih r hr hfails
      exact ⟨q, .head hr hq, horigin⟩
    · exact ⟨p, .refl, h, fun q hq hfails => hparts ⟨q, hq, hfails⟩⟩

/-- The scopes where a task begins, or where a part of it has ended. -/
inductive Before (verbosity : Nat) (p : Point) : Store → Prop where
  | start : Before verbosity p p.machine.store
  | part {q : Point} : Begins verbosity p q → Before verbosity p (ending verbosity q).store

theorem Ending.store_of {α : Type} (get : α → Option RuntimeError)
    (r : EStateM.Result EvalFault Machine α) : (Ending.of get r).store = (leaves r).store := by
  cases r with
  | ok => rfl
  | error f => cases f <;> rfl

theorem Ending.store_unwrapped (q : EvalM Value) (m : Machine) :
    (Ending.of error? ((do return (← q).unwrapped : EvalM Value) m)).store =
      (Ending.of error? (q m)).store := by
  cases hq : q m with
  | ok v m' =>
    rw [bind_of_ok hq]
    rfl
  | error f m' => rw [bind_of_error hq]

/-- A sequence can fail behind its first part only, if that does not fail. -/
theorem exists_of_unless {q : EvalM Value} {k : Value → EvalM Value} {m : Machine}
    (hq : ¬ (Ending.of error? (q m)).Fails)
    (h : (Ending.of error? ((q >>= fun v => unlessSignal v (k v)) m)).Fails) :
    ∃ v m', q m = .ok v m' ∧ v.isSignal = false ∧ (Ending.of error? (k v m')).Fails := by
  cases hv : q m with
  | ok v m' =>
    rw [hv] at hq
    cases hs : v.isSignal with
    | true =>
      rw [bind_of_ok hv, unlessSignal, if_pos hs] at h
      exact absurd h hq
    | false =>
      rw [unless_of_ok hv hs] at h
      exact ⟨v, m', rfl, hs, h⟩
  | error f m' =>
    rw [hv] at hq
    rw [bind_of_error hv] at h
    exact absurd h hq

theorem exists_of_expressions {q : EvalM (Except Value (List Value))} {f : List Value → EvalM Value}
    {m : Machine} (hq : ¬ (Ending.of listError? (q m)).Fails)
    (h : (Ending.of error? ((do
      match ← q with
      | .error signal => return signal
      | .ok vs => f vs) m)).Fails) :
    ∃ vs m', q m = .ok (.ok vs) m' ∧ (Ending.of error? (f vs m')).Fails := by
  cases hr : q m with
  | ok r m' =>
    rw [hr] at hq
    rw [bind_of_ok hr] at h
    cases r with
    | error s => exact absurd h hq
    | ok vs => exact ⟨vs, m', rfl, h⟩
  | error fault m' =>
    rw [hr] at hq
    rw [bind_of_error hr] at h
    cases fault with
    | tooDeep => exact absurd rfl hq
    | _ => cases h

theorem Before.of_ok {p : Point} {id : ScopeId} {n : Node} {k : Nat} {v : Value} {m m' : Machine}
    (h : Begins verbosity p ⟨.node id n, k, m⟩)
    (hv : node verbosity (callUpTo verbosity k) id n m = .ok v m') :
    Before verbosity p m'.store := by
  have hpart := Before.part h
  rwa [ending_node, hv] at hpart

theorem identifier_ending (id : ScopeId) (name : String) (m : Machine) :
    (Ending.of error? (identifier id name m)).store = m.store := by
  have hlookup : lookup id name m = .ok (m.store.get? id name) m := rfl
  rw [identifier, bind_of_ok hlookup]
  cases m.store.get? id name with
  | some v => rfl
  | none => cases Builtin.ofName? name <;> rfl

theorem index_ending (c i : Value) (m : Machine) :
    (Ending.of error? (index verbosity c i m)).store = m.store := by
  rw [index]
  cases indexOperands c i with
  | error e => rfl
  | ok p => exact congrArg (fun r => (Ending.of error? r).store) (bind_of_ok (note_eq _ _ _ _))

/-- A node that fails by itself does not bind a name: it leaves the scopes as its last part did. -/
theorem Origin.before_node {id : ScopeId} {n : Node} {k : Nat} {m : Machine}
    (h : Origin verbosity ⟨.node id n, k, m⟩) : Before verbosity ⟨.node id n, k, m⟩
      (ending verbosity ⟨.node id n, k, m⟩).store := by
  obtain ⟨hfails, hparts⟩ := h
  have hfirst {c : Node} (hc : n.first? = some c) :
      ¬ (Ending.of error? (node verbosity (callUpTo verbosity k) id c m)).Fails :=
    hparts ⟨.node id c, k, m⟩ (.first hc)
  have hsecond {c d : Node} {v : Value} {m' : Machine} (hc : n.first? = some c)
      (hd : n.second? = some d) (hv : node verbosity (callUpTo verbosity k) id c m = .ok v m')
      (hs : v.isSignal = false) :
      ¬ (Ending.of error? (node verbosity (callUpTo verbosity k) id d m')).Fails :=
    hparts ⟨.node id d, k, m'⟩ (.second hc hd hv hs)
  rw [ending_node] at hfails
  cases n with
  | program ss =>
    rw [ending_node, node, Ending.store_unwrapped]
    exact .part (.block rfl)
  | block t ss =>
    rw [node] at hfails
    exact absurd hfails (hparts _ (.block rfl))
  | letStatement t name value =>
    rw [node] at hfails
    obtain ⟨v, m', hv, hs, hend⟩ := exists_of_unless (hfirst rfl) hfails
    have hbind : bind id name.name v m' =
      .ok () { m' with store := m'.store.set id name.name v } := rfl
    rw [bind_of_ok hbind, bind_of_ok (note_eq _ _ _ _)] at hend
    cases hend
  | returnStatement t value =>
    cases value with
    | none =>
      rw [node] at hfails
      cases hfails
    | some value =>
      rw [node] at hfails
      obtain ⟨v, m', hv, hs, hend⟩ := exists_of_unless (hfirst rfl) hfails
      cases hend
  | expressionStatement t e =>
    rw [node] at hfails
    exact absurd hfails (hfirst rfl)
  | ident name =>
    rw [ending_node, node, identifier_ending]
    exact .start
  | array t es =>
    rw [node] at hfails
    obtain ⟨vs, m', -, hend⟩ := exists_of_expressions (hparts _ .elements) hfails
    cases hend
  | prefixOp t op e =>
    rw [node] at hfails
    obtain ⟨v, m', hv, hs, hend⟩ := exists_of_unless (hfirst rfl) hfails
    rw [ending_node, node, unless_of_ok hv hs]
    exact .of_ok (.first rfl) hv
  | infixOp t op left right =>
    rw [node] at hfails
    obtain ⟨l, m', hl, hs, hend⟩ := exists_of_unless (hfirst rfl) hfails
    obtain ⟨r, m'', hr, hs', -⟩ := exists_of_unless (hsecond rfl rfl hl hs) hend
    rw [ending_node, node, unless_of_ok hl hs, unless_of_ok hr hs']
    exact .of_ok (.second rfl rfl hl hs) hr
  | conditional t c a b =>
    have hcondition : ∃ v m', node verbosity (callUpTo verbosity k) id c m = .ok v m' ∧
        v.isSignal = false := by
      cases b <;>
      · rw [node] at hfails
        obtain ⟨v, m', hv, hs, -⟩ := exists_of_unless (hfirst rfl) hfails
        exact ⟨v, m', hv, hs⟩
    obtain ⟨v, m', hv, hs⟩ := hcondition
    cases hd : (if v.isTruthy then some a else b) with
    | some d =>
      obtain ⟨trace, hbegins, hend⟩ := ending_branch (t := t) hv hs hd
      rw [← ending_node, hend] at hfails
      exact absurd hfails (hparts _ hbegins)
    | none =>
      split at hd
      · cases hd
      · next ht =>
        subst hd
        rw [node, unless_of_ok hv hs, bind_of_ok (note_eq _ _ _ _), if_neg ht] at hfails
        cases hfails
  | call t callee arguments =>
    rw [node] at hfails
    obtain ⟨f, m', hf, hs, hend⟩ := exists_of_unless (hfirst rfl) hfails
    obtain ⟨args, m'', hargs, hcall⟩ := exists_of_expressions (hparts _ (.arguments hf hs)) hend
    exact absurd hcall (hparts _ (.call hf hs hargs))
  | index t collection position =>
    rw [node] at hfails
    obtain ⟨c, m', hc, hs, hend⟩ := exists_of_unless (hfirst rfl) hfails
    obtain ⟨i, m'', hi, hs', -⟩ := exists_of_unless (hsecond rfl rfl hc hs) hend
    rw [ending_node, node, unless_of_ok hc hs, unless_of_ok hi hs', index_ending]
    exact .of_ok (.second rfl rfl hc hs) hi
  | integer | string | boolean | function | datum =>
    rw [node] at hfails
    cases hfails

/-- The values of expressions only fail where an expression does. -/
theorem not_fails_expressions {id : ScopeId} {e : Node} {es : List Node} {k : Nat} {m : Machine}
    (hparts : ∀ q, Begins verbosity ⟨.expressions id (e :: es), k, m⟩ q →
      ¬ (ending verbosity q).Fails) :
    ¬ (ending verbosity ⟨.expressions id (e :: es), k, m⟩).Fails := by
  have hhead := hparts _ .expression
  intro hfails
  rw [ending_node] at hhead
  rw [ending_expressions, expressions] at hfails
  cases hv : node verbosity (callUpTo verbosity k) id e m with
  | error f m' =>
    rw [hv] at hhead
    rw [bind_of_error hv] at hfails
    cases f <;> exact hhead hfails
  | ok v m' =>
    cases hs : v.isSignal with
    | true =>
      rw [hv] at hhead
      rw [bind_of_ok hv, if_pos hs] at hfails
      exact hhead hfails
    | false =>
      have htail := hparts _ (.expressions hv hs)
      rw [ending_expressions] at htail
      rw [bind_of_ok hv, if_neg (by rw [hs]; decide)] at hfails
      cases hr : expressions verbosity (callUpTo verbosity k) id es m' with
      | error f m'' =>
        rw [hr] at htail
        rw [bind_of_error hr] at hfails
        exact htail hfails
      | ok r m'' =>
        rw [hr] at htail
        rw [bind_of_ok hr] at hfails
        cases r with
        | error s => exact htail hfails
        | ok vs => cases hfails

/-- Behind the parts of a task that fails by itself no scope is changed that existed then. -/
theorem Origin.before {p : Point} (h : Origin verbosity p) :
    ∃ s, Before verbosity p s ∧ s.Frame (fun _ _ => False) (ending verbosity p).store := by
  obtain ⟨task, k, m⟩ := p
  have hexact {s : Store} (hs : Before verbosity ⟨task, k, m⟩ s)
      (heq : (ending verbosity ⟨task, k, m⟩).store = s) :
      ∃ s, Before verbosity ⟨task, k, m⟩ s ∧
        s.Frame (fun _ _ => False) (ending verbosity ⟨task, k, m⟩).store :=
    ⟨s, hs, heq ▸ .refl _ _⟩
  cases task with
  | run id program =>
    obtain ⟨trace, hbegins, hend⟩ := ending_run verbosity id program k m
    apply hexact (.part hbegins)
    rw [hend, Ending.store_unwrapped]
    rfl
  | node id n => exact hexact h.before_node rfl
  | statements id last ss =>
    cases ss with
    | nil => exact hexact .start (by rw [ending_statements, statements]; rfl)
    | cons s ss =>
      obtain ⟨hfails, hparts⟩ := h
      rw [ending_statements, statements] at hfails
      obtain ⟨v, m', hv, hs, hend⟩ := exists_of_unless (hparts _ .statement) hfails
      exact absurd hend (hparts _ (.statements hv hs))
  | expressions id es =>
    cases es with
    | nil => exact hexact .start (by rw [ending_expressions, expressions]; rfl)
    | cons e es =>
      exact absurd h.fails (not_fails_expressions h.parts)
  | call f args =>
    refine ⟨m.store, .start, ?_⟩
    rw [ending_call, Ending.store_of]
    exact call_frame verbosity k f args m

/-! ## Runs that end with an error -/

/-- The names that a statement may bind without being completed. -/
def innerLets : Node → List String
  | .letStatement _ _ e => e.letNames
  | n => n.letNames

/-- A statement that fails has bound names of `let` statements inside of it only. -/
theorem frame_of_fails {id : ScopeId} {s : Node} {k : Nat} {m : Machine}
    (h : (ending verbosity ⟨.node id s, k, m⟩).Fails) :
    m.store.Frame (fun i name => i = id ∧ name ∈ innerLets s)
      (ending verbosity ⟨.node id s, k, m⟩).store := by
  cases s with
  | letStatement t x e =>
    have hvalue : (ending verbosity ⟨.node id e, k, m⟩).Fails := by
      by_contra hvalue
      rw [ending_node, node] at h
      obtain ⟨v, m', -, -, hend⟩ := exists_of_unless hvalue h
      have hbind : bind id x.name v m' =
        .ok () { m' with store := m'.store.set id x.name v } := rfl
      rw [bind_of_ok hbind, bind_of_ok (note_eq _ _ _ _)] at hend
      cases hend
    rw [ending_first (n := .letStatement t x e) rfl hvalue, ending_node, Ending.store_of]
    exact node_frame verbosity k id e m
  | _ =>
    rw [ending_node, Ending.store_of]
    exact node_frame verbosity k id _ m

/-- Statements that fail do so in one of them, before which the others were completed. -/
theorem exists_failing {id : ScopeId} {k : Nat} (program : List Node) {last : Value} {m : Machine}
    (hlast : last.isSignal = false)
    (h : (ending verbosity ⟨.statements id last program, k, m⟩).Fails) :
    ∃ before s rest v n, program = before ++ s :: rest ∧
      statements verbosity (callUpTo verbosity k) id last before m = .ok v n ∧
      v.isSignal = false ∧ (ending verbosity ⟨.node id s, k, n⟩).Fails ∧
      ending verbosity ⟨.statements id last program, k, m⟩ = ending verbosity ⟨.node id s, k, n⟩ := by
  induction program generalizing last m with
  | nil =>
    rw [ending_statements, statements] at h
    obtain ⟨e, rfl⟩ := eq_error_of_isSome h
    cases hlast
  | cons s ss ih =>
    by_cases hs : (ending verbosity ⟨.node id s, k, m⟩).Fails
    · refine ⟨[], s, ss, last, m, rfl, rfl, hlast, hs, ?_⟩
      rw [ending_statements, statements]
      exact Ending.of_unless hs
    · rw [ending_statements, statements] at h ⊢
      obtain ⟨v, m', hv, hsignal, hend⟩ := exists_of_unless hs h
      obtain ⟨before, r, rest, w, n, rfl, hw, hw', hfails, heq⟩ := ih hsignal hend
      refine ⟨s :: before, r, rest, w, n, rfl, ?_, hw', hfails, ?_⟩
      · rw [statements, unless_of_ok hv hsignal]
        exact hw
      · rw [unless_of_ok hv hsignal]
        exact heq

/-- Only the statements of a run can fail: what is returned holds no error. -/
theorem exists_ending_run {id : ScopeId} {program : List Node} {k : Nat} {m : Machine}
    (hm : m.store.SignalFree) (h : (ending verbosity ⟨.run id program, k, m⟩).Fails) :
    ∃ trace, ending verbosity ⟨.run id program, k, m⟩ =
      ending verbosity ⟨.statements id .null program, k, { m with trace := trace }⟩ := by
  obtain ⟨trace, -, hend⟩ := ending_run verbosity id program k m
  refine ⟨trace, ?_⟩
  rw [hend] at h ⊢
  apply Ending.of_unwrapped
  have hat : signalInvariant.At ⟨.statements id .null program, k, { m with trace := trace }⟩ :=
    ⟨hm, .value signalFree_null, fun _ _ => trivial⟩
  have hkept : signalInvariant.Kept _ (statements verbosity (callUpTo verbosity k) id .null program
    { m with trace := trace }) := hat.ends (signalInvariant.suits _)
  cases hr : statements verbosity (callUpTo verbosity k) id .null program
      { m with trace := trace } with
  | error f n =>
    rw [bind_of_error hr] at h
    exact h
  | ok v n =>
    rw [bind_of_ok hr] at h
    cases (hkept.of_ok hr).2 with
    | value hv =>
      rw [unwrapped_of_not_isSignal hv.isSignal] at h
      exact h
    | returned hv =>
      obtain ⟨e, rfl⟩ := eq_error_of_isSome h
      exact absurd hv (not_signalFree_error e)
    | error => rfl

/-- What running a program leaves that fails, given by `m'`. -/
structure Stops (limit verbosity : Nat) (id : ScopeId) (program : List Node) (m m' : Machine) :
    Prop where
  /-- The statements before the failing one are completed, and what they have bound is kept. The
  failing one may have bound names of `let` statements inside of it; those behind it are not run. -/
  split : ∃ before s rest, program = before ++ s :: rest ∧
    RunsThrough limit verbosity id before m ∧
    ∀ i < (leaves (runUpTo limit verbosity id before m)).store.scopes.size, ∀ name,
      ¬ (i = id ∧ name ∈ innerLets s) → m'.store.own? i name =
        (leaves (runUpTo limit verbosity id before m)).store.own? i name
  /-- Nothing is done after the origin of the error, and there no scope is changed that existed
  when the last part of the task ended. -/
  origin : ∃ q s, Reached verbosity ⟨.run id program, limit, m⟩ q ∧ Origin verbosity q ∧
    Before verbosity q s ∧ s.Frame (fun _ _ => False) (ending verbosity q).store ∧
    Store.Same m'.store (ending verbosity q).store ∧ m'.output = (ending verbosity q).output

theorem same_of_through {limit : Nat} {scope : ScopeId} {program : List Node} {v : Value}
    {m n : Machine} {trace : Array Note}
    (h : statements verbosity (callUpTo verbosity limit) scope .null program
      { m with trace := trace } = .ok v n) :
    Store.Same (leaves (runUpTo limit verbosity scope program m)).store n.store := by
  obtain ⟨before, after, hrun⟩ := exists_runUpTo_eq program m
  have hends := unnoted_endAlike limit verbosity scope rfl (p := program) rfl
    (.of_traces id m before trace)
  rw [unnoted_of_ok h] at hends
  rw [hrun, leaves_retraced]
  exact hends.leaves.store.same

/-- A run that ends with an error has stopped where the error occurred. -/
theorem stops_of_error {limit : Nat} {scope : ScopeId} {program : List Node} {m m' : Machine}
    {e : RuntimeError} (hm : m.store.SignalFree)
    (h : runUpTo limit verbosity scope program m = .ok (.error e) m') :
    Stops limit verbosity scope program m m' := by
  have hend : ending verbosity ⟨.run scope program, limit, m⟩ = ⟨some e, m'.store, m'.output⟩ := by
    rw [ending_program, h]
    rfl
  have hfails : (ending verbosity ⟨.run scope program, limit, m⟩).Fails := by
    rw [hend]
    rfl
  constructor
  · obtain ⟨trace, hrun⟩ := exists_ending_run hm hfails
    rw [hrun] at hfails
    obtain ⟨before, s, rest, v, n, rfl, hv, hs, hfails, heq⟩ := exists_failing program rfl hfails
    have hthrough : RunsThrough limit verbosity scope before m :=
      RunsThrough.of_matched (L := .upTo id) ⟨v, n, hv, hs⟩ rfl (.of_traces _ m trace m.trace)
    have hsame := same_of_through hv
    have hstore : m'.store = (ending verbosity ⟨.node scope s, limit, n⟩).store := by
      rw [← heq, ← hrun, hend]
    refine ⟨before, s, rest, rfl, hthrough, fun i hi name hfree => ?_⟩
    rw [hstore, hsame.own i name]
    exact (frame_of_fails hfails).free i (hsame.size ▸ hi) name hfree
  · obtain ⟨q, hq, horigin⟩ := exists_origin hfails
    obtain ⟨s, hs, hframe⟩ := horigin.before
    have hsame := ending_of_reached hq horigin.fails
    rw [hend] at hsame
    exact ⟨q, s, hq, horigin, hs, hframe, hsame.store, hsame.output⟩

end Eval

end Simian
