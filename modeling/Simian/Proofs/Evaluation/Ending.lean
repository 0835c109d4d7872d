import Simian.Proofs.Evaluation.InParts
import Simian.Proofs.Evaluation.Reached

/-!
# Errors of parts

An error of a part is the error of the whole, and nothing is done after it: no text is printed, no
name is bound and no scope is made until the whole has ended. Calls that nest too deep are errors
here like all others.
-/

namespace Simian

open Machine Value
set_option autoImplicit false

def Value.error? : Value → Option RuntimeError
  | .error e => some e
  | _ => none

namespace Store

theorem Same.refl (s : Store) : Same s s := ⟨rfl, fun _ => rfl, fun _ _ => rfl⟩

theorem Same.trans {s t u : Store} (h : Same s t) (h' : Same t u) : Same s u :=
  ⟨h.size.trans h'.size, fun i => (h.outer i).trans (h'.outer i),
    fun i name => (h.own i name).trans (h'.own i name)⟩

theorem Same.symm {s t : Store} (h : Same s t) : Same t s :=
  ⟨h.size.symm, fun i => (h.outer i).symm, fun i name => (h.own i name).symm⟩

end Store

namespace Eval

/-- The error that an evaluation ends with, if any, and what it leaves of scopes and of text. -/
structure Ending where
  error : Option RuntimeError
  store : Store
  output : String

namespace Ending

def of {α : Type} (error? : α → Option RuntimeError) : EStateM.Result EvalFault Machine α → Ending
  | .ok a m => ⟨error? a, m.store, m.output⟩
  | .error .tooDeep m => ⟨some .tooDeep, m.store, m.output⟩
  | .error _ m => ⟨none, m.store, m.output⟩

/-- The same error, text and bindings. -/
structure Same (x y : Ending) : Prop where
  error : x.error = y.error
  store : Store.Same x.store y.store
  output : x.output = y.output

def Fails (x : Ending) : Prop := x.error.isSome

theorem Same.refl (x : Ending) : Same x x := ⟨rfl, .refl x.store, rfl⟩

theorem Same.of_eq {x y : Ending} (h : x = y) : Same x y := h ▸ .refl x

theorem Same.trans {x y z : Ending} (h : Same x y) (h' : Same y z) : Same x z :=
  ⟨h.error.trans h'.error, h.store.trans h'.store, h.output.trans h'.output⟩

theorem Same.symm {x y : Ending} (h : Same x y) : Same y x :=
  ⟨h.error.symm, h.store.symm, h.output.symm⟩

theorem Same.fails {x y : Ending} (h : Same x y) (hx : x.Fails) : y.Fails := by
  rwa [Fails, ← h.error]

end Ending

/-- The error of a list of values: that of the signal that took its place. -/
def listError? : Except Value (List Value) → Option RuntimeError
  | .error s => s.error?
  | .ok _ => none

/-- How the task at a point ends. -/
def ending (verbosity : Nat) (p : Point) : Ending :=
  match p.task with
  | .run id program => .of error? (runUpTo p.limit verbosity id program p.machine)
  | .node id n => .of error? (node verbosity (callUpTo verbosity p.limit) id n p.machine)
  | .statements id last ss =>
    .of error? (statements verbosity (callUpTo verbosity p.limit) id last ss p.machine)
  | .expressions id es =>
    .of listError? (expressions verbosity (callUpTo verbosity p.limit) id es p.machine)
  | .call f args => .of error? (callUpTo verbosity p.limit f args p.machine)

section
variable {verbosity : Nat} {id : ScopeId} {k : Nat} {m : Machine}

theorem ending_program {program : List Node} : ending verbosity ⟨.run id program, k, m⟩ =
    .of error? (runUpTo k verbosity id program m) := rfl

theorem ending_node {n : Node} : ending verbosity ⟨.node id n, k, m⟩ =
    .of error? (node verbosity (callUpTo verbosity k) id n m) := rfl

theorem ending_statements {last : Value} {ss : List Node} :
    ending verbosity ⟨.statements id last ss, k, m⟩ =
      .of error? (statements verbosity (callUpTo verbosity k) id last ss m) := rfl

theorem ending_expressions {es : List Node} : ending verbosity ⟨.expressions id es, k, m⟩ =
    .of listError? (expressions verbosity (callUpTo verbosity k) id es m) := rfl

theorem ending_call {f : Value} {args : List Value} : ending verbosity ⟨.call f args, k, m⟩ =
    .of error? (callUpTo verbosity k f args m) := rfl

end

/-! ## Sequences -/

section
variable {α β : Type} {get : α → Option RuntimeError} {get' : β → Option RuntimeError}
  {p : EvalM α} {m : Machine}

theorem Ending.of_andThen {f : α → EvalM β} (h : (Ending.of get (p m)).Fails)
    (hf : ∀ a m', (get a).isSome → Ending.of get' (f a m') = Ending.of get (.ok a m')) :
    Ending.of get' ((p >>= f) m) = Ending.of get (p m) := by
  cases hp : p m with
  | ok a m' =>
    rw [hp] at h
    rw [bind_of_ok hp]
    exact hf a m' h
  | error f m' =>
    rw [hp] at h
    rw [bind_of_error hp]
    cases f with
    | tooDeep => rfl
    | _ => cases h

theorem eq_error_of_isSome {v : Value} (h : v.error?.isSome) : ∃ e, v = .error e := by
  cases v with
  | error e => exact ⟨e, rfl⟩
  | _ => cases h

theorem Ending.of_unless {q : EvalM Value} {k : Value → EvalM Value}
    (h : (Ending.of error? (q m)).Fails) :
    Ending.of error? ((q >>= fun v => unlessSignal v (k v)) m) = Ending.of error? (q m) := by
  apply Ending.of_andThen h
  intro v m' hv
  obtain ⟨e, rfl⟩ := eq_error_of_isSome hv
  rfl

theorem Ending.of_unwrapped {q : EvalM Value} (h : (Ending.of error? (q m)).Fails) :
    Ending.of error? ((do return (← q).unwrapped : EvalM Value) m) = Ending.of error? (q m) := by
  apply Ending.of_andThen h
  intro v m' hv
  obtain ⟨e, rfl⟩ := eq_error_of_isSome hv
  rfl

/-- A part that gives no signal, and what comes after it. -/
theorem unless_of_ok {q : EvalM Value} {k : Value → EvalM Value} {v : Value} {m' : Machine}
    (h : q m = .ok v m') (hs : v.isSignal = false) :
    (q >>= fun v => unlessSignal v (k v)) m = k v m' := by
  rw [bind_of_ok h, unlessSignal, hs]
  rfl

/-- What a sequence gives that is no signal comes from its end. -/
theorem exists_of_unless_eq {q : EvalM Value} {k : Value → EvalM Value} {v : Value} {n : Machine}
    (h : (q >>= fun w => unlessSignal w (k w)) m = .ok v n) (hv : v.isSignal = false) :
    ∃ w m', q m = .ok w m' ∧ w.isSignal = false ∧ k w m' = .ok v n := by
  obtain ⟨w, m', hw, hrest⟩ := bind_eq_ok_iff.mp h
  cases hs : w.isSignal with
  | true =>
    rw [unlessSignal, if_pos hs] at hrest
    cases hrest
    rw [hv] at hs
    cases hs
  | false =>
    rw [unlessSignal, hs] at hrest
    exact ⟨w, m', hw, hs, hrest⟩

/-- The values of expressions, or their signal as the value of the whole. -/
theorem Ending.of_expressions {q : EvalM (Except Value (List Value))}
    (h : (Ending.of listError? (q m)).Fails) (f : List Value → EvalM Value) :
    Ending.of error? ((do
      match ← q with
      | .error signal => return signal
      | .ok vs => f vs) m) = Ending.of listError? (q m) := by
  apply Ending.of_andThen h
  intro r m' hr
  cases r with
  | error s => rfl
  | ok vs => cases hr

theorem Ending.of_settleDepth (q : EvalM Value) (m : Machine) :
    Ending.of error? (settleDepth q m) = Ending.of error? (q m) := by
  unfold settleDepth
  split
  · next h => rw [h]; rfl
  · rfl

theorem EndAlike.same {r r' : EStateM.Result EvalFault Machine Value}
    (h : EndAlike (.upTo id) r r') : (Ending.of error? r).Same (Ending.of error? r') := by
  cases h with
  | ok hx hm => exact ⟨congrArg error? hx.eq, hm.store.same, hm.output⟩
  | error hf hm => cases hf <;> exact ⟨rfl, hm.store.same, hm.output⟩

end

/-! ## Errors of parts -/

variable {verbosity : Nat}

theorem exists_of_note {level : Nat} {text : Unit → String} {m m' : Machine}
    (h : note verbosity level text m = .ok () m') : ∃ trace, m' = { m with trace := trace } := by
  rw [note_eq] at h
  cases h
  exact ⟨_, rfl⟩

/-- The trace that there is when statements begin does not matter. -/
theorem ending_statements_retraced (verbosity : Nat) (id : ScopeId) (ss : List Node) (k : Nat) (m : Machine)
    (trace trace' : Array Note) :
    (ending verbosity ⟨.statements id .null ss, k, { m with trace := trace }⟩).Same
      (ending verbosity ⟨.statements id .null ss, k, { m with trace := trace' }⟩) :=
  (statements_endAlike k verbosity id rfl (p := ss) rfl (.of_traces _ m trace trace')).same

theorem ending_node_retraced (verbosity : Nat) (id : ScopeId) (n : Node) (k : Nat) (m : Machine)
    (trace trace' : Array Note) :
    (ending verbosity ⟨.node id n, k, { m with trace := trace }⟩).Same
      (ending verbosity ⟨.node id n, k, { m with trace := trace' }⟩) :=
  (Lockstep.endAlike (.of_traces _ m trace trace')
    (node_lockstep (callUpTo_lockstep k) n rfl rfl)).same

/-- A run ends as its statements do, with a value that was returned unwrapped. -/
theorem ending_run (verbosity : Nat) (id : ScopeId) (program : List Node) (k : Nat) (m : Machine) : ∃ trace,
    Begins verbosity ⟨.run id program, k, m⟩
      ⟨.statements id .null program, k, { m with trace := trace }⟩ ∧
    ending verbosity ⟨.run id program, k, m⟩ = .of error? ((do return (← statements verbosity
      (callUpTo verbosity k) id .null program).unwrapped : EvalM Value)
        { m with trace := trace }) := by
  have hnote := note_eq verbosity 1
    (fun _ => "run program with " ++ toString program.length ++ " statement(s)") m
  refine ⟨_, .program hnote, ?_⟩
  have hrun := bind_of_ok (f := fun _ => do
      let v ← settleDepth do
        return (← statements verbosity (callUpTo verbosity k) id .null program).unwrapped
      note verbosity 1 fun _ => "result " ++ v.type.name ++ ": " ++ v.inspect
      return v) hnote
  rw [ending_program, runUpTo, hrun]
  generalize ({ m with trace := _ } : Machine) = m'
  refine Eq.trans ?_ (Ending.of_settleDepth _ m')
  generalize settleDepth _ = q
  cases hq : q m' with
  | ok v n =>
    rw [bind_of_ok hq, bind_of_ok (note_eq _ _ _ _)]
    rfl
  | error f n =>
    rw [bind_of_error hq]

theorem ending_block {id : ScopeId} {n : Node} {ss : List Node} {k : Nat} {m : Machine}
    (hss : n.statements? = some ss)
    (h : (ending verbosity ⟨.statements id .null ss, k, m⟩).Fails) :
    ending verbosity ⟨.node id n, k, m⟩ = ending verbosity ⟨.statements id .null ss, k, m⟩ := by
  cases n with
  | program =>
    cases hss
    rw [ending_node, node]
    exact Ending.of_unwrapped h
  | block =>
    cases hss
    rw [ending_node, node]
    rfl
  | _ => cases hss

/-- An error of the first part of a node is the error of the node. -/
theorem ending_first {id : ScopeId} {n c : Node} {k : Nat} {m : Machine} (hc : n.first? = some c)
    (h : (ending verbosity ⟨.node id c, k, m⟩).Fails) :
    ending verbosity ⟨.node id n, k, m⟩ = ending verbosity ⟨.node id c, k, m⟩ := by
  cases n with
  | letStatement | prefixOp | infixOp | call | index =>
    cases hc
    rw [ending_node, ending_node, node]
    exact Ending.of_unless h
  | returnStatement t value =>
    cases hc
    rw [ending_node, ending_node, node]
    exact Ending.of_unless h
  | expressionStatement =>
    cases hc
    rw [ending_node, ending_node, node]
  | conditional t a b d =>
    cases hc
    cases d <;>
    · rw [ending_node, ending_node, node]
      exact Ending.of_unless h
  | _ => cases hc

theorem ending_second {id : ScopeId} {n c d : Node} {v : Value} {k : Nat} {m m' : Machine}
    (hc : n.first? = some c) (hd : n.second? = some d)
    (hv : node verbosity (callUpTo verbosity k) id c m = .ok v m') (hs : v.isSignal = false)
    (h : (ending verbosity ⟨.node id d, k, m'⟩).Fails) :
    ending verbosity ⟨.node id n, k, m⟩ = ending verbosity ⟨.node id d, k, m'⟩ := by
  cases n with
  | infixOp | index =>
    cases hc
    cases hd
    rw [ending_node, ending_node, node]
    rw [unless_of_ok hv hs]
    exact Ending.of_unless h
  | _ => cases hd

theorem ending_branch {id : ScopeId} {t : Token} {c a d : Node} {b : Option Node} {v : Value}
    {k : Nat} {m m' : Machine} (hv : node verbosity (callUpTo verbosity k) id c m = .ok v m')
    (hs : v.isSignal = false) (hd : (if v.isTruthy then some a else b) = some d) :
    ∃ trace, Begins verbosity ⟨.node id (.conditional t c a b), k, m⟩
        ⟨.node id d, k, { m' with trace := trace }⟩ ∧
      ending verbosity ⟨.node id (.conditional t c a b), k, m⟩ =
        ending verbosity ⟨.node id d, k, { m' with trace := trace }⟩ := by
  have hnote := note_eq verbosity 3
    (fun _ => "if condition " ++ v.inspect ++ " -> " ++ truthText v.isTruthy) m'
  refine ⟨_, .branch hv hs hnote hd, ?_⟩
  cases b with
  | none =>
    split at hd
    · next ht =>
      cases hd
      rw [ending_node, ending_node, node]
      rw [unless_of_ok hv hs, bind_of_ok hnote, if_pos ht]
    · cases hd
  | some b =>
    rw [ending_node, ending_node, node]
    rw [unless_of_ok hv hs, bind_of_ok hnote]
    split at hd
    · next ht =>
      cases hd
      rw [if_pos ht]
    · next ht =>
      cases hd
      rw [if_neg ht]

/-- The machine where the body of a function begins that was made in scope `id`. -/
def entered (id : ScopeId) (bindings : List (String × Value)) (m : Machine) : Machine :=
  let inner := m.store.addScope (m.store.chain id)
  { m with store := bindings.foldl (fun s p => s.set m.store.scopes.size p.1 p.2) inner }

theorem bindAll_eq (id : ScopeId) (ps : List (String × Value)) (m : Machine) :
    bindAll id ps m =
      .ok () { m with store := ps.foldl (fun s p => s.set id p.1 p.2) m.store } := by
  induction ps generalizing m with
  | nil => rfl
  | cons p ps ih => exact (bind_of_ok rfl).trans (ih _)

/-- The body of a function is run in a scope of its own, where the arguments are bound. -/
theorem ending_body (verbosity i : Nat) {ps : List String} {code : Node} (id : ScopeId)
    {args : List Value} {ss : List Node} (k : Nat) (m : Machine) (hlen : args.length = ps.length)
    (hss : code.statements? = some ss) : ∃ trace,
    Begins verbosity ⟨.call (.function i ps code id) args, k + 1, m⟩
      ⟨.statements m.store.scopes.size .null ss, k,
        { entered id (ps.zip args) m with trace := trace }⟩ ∧
    ending verbosity ⟨.call (.function i ps code id) args, k + 1, m⟩ =
      .of error? ((do return (← statements verbosity (callUpTo verbosity k)
        m.store.scopes.size .null ss).unwrapped : EvalM Value)
          { entered id (ps.zip args) m with trace := trace }) := by
  obtain ⟨trace, hnote⟩ : ∃ trace, note verbosity 2 (fun _ => "call " ++
      (Value.function i ps code id).signature?.getD "" ++ " with (" ++ argumentsText args ++ ")") m =
        .ok () { m with trace := trace } := ⟨_, note_eq _ _ _ _⟩
  have hscope : newScope id { m with trace := trace } = .ok m.store.scopes.size { m with
      store := m.store.addScope (m.store.chain id), trace := trace } := rfl
  have hbind : bindAll m.store.scopes.size (ps.zip args) { m with
      store := m.store.addScope (m.store.chain id), trace := trace } =
        .ok () { entered id (ps.zip args) m with trace := trace } := bindAll_eq _ _ _
  refine ⟨trace, .body hlen hnote hscope hbind hss, ?_⟩
  rw [ending_call, callUpTo, apply, if_neg (not_not.mpr hlen), bind_of_ok hnote, bind_of_ok hscope,
    bind_of_ok hbind, body, hss]

/-- The error of a part is the error of the whole, with nothing done after it. -/
theorem ending_of_begins {p q : Point} (h : Begins verbosity p q) (hq : (ending verbosity q).Fails) :
    (ending verbosity p).Same (ending verbosity q) := by
  cases h with
  | @program id program k text m _ hnote =>
    obtain ⟨trace, rfl⟩ := exists_of_note hnote
    obtain ⟨trace', -, hend⟩ := ending_run verbosity id program k m
    have hsame := ending_statements_retraced verbosity id program k m trace trace'
    rw [hend, Ending.of_unwrapped (hsame.fails hq)]
    exact hsame.symm
  | block hss => exact .of_eq (ending_block hss hq)
  | statement =>
    rw [ending_statements, statements]
    exact .of_eq (Ending.of_unless hq)
  | statements hv hs =>
    rw [ending_statements, statements, unless_of_ok hv hs]
    exact .refl _
  | first hc => exact .of_eq (ending_first hc hq)
  | second hc hd hv hs => exact .of_eq (ending_second hc hd hv hs hq)
  | @branch id t c a d b v k text m m' _ hv hs hnote hd =>
    obtain ⟨trace, rfl⟩ := exists_of_note hnote
    obtain ⟨trace', -, hend⟩ := ending_branch (t := t) hv hs hd
    rw [hend]
    exact ending_node_retraced verbosity id d k m' trace' trace
  | elements =>
    rw [ending_node, node]
    exact .of_eq (Ending.of_expressions hq _)
  | arguments hf hs =>
    rw [ending_node, node, unless_of_ok hf hs]
    exact .of_eq (Ending.of_expressions hq _)
  | expression =>
    rw [ending_expressions, expressions]
    apply Ending.Same.of_eq (Ending.of_andThen hq _)
    intro v m' hv
    obtain ⟨e, rfl⟩ := eq_error_of_isSome hv
    rfl
  | expressions hv hs =>
    rw [ending_expressions, expressions, bind_of_ok hv, hs]
    apply Ending.Same.of_eq (Ending.of_andThen hq _)
    intro r m' hr
    cases r with
    | error s => rfl
    | ok vs => cases hr
  | call hf hs hargs =>
    rw [ending_node, node, unless_of_ok hf hs, bind_of_ok hargs]
    exact .refl _
  | @body i ps code id inner args ss k text m₁ m₂ m₃ m₄ hlen hnote hscope hbind hss =>
    obtain ⟨trace, rfl⟩ := exists_of_note hnote
    cases hscope
    rw [bindAll_eq] at hbind
    cases hbind
    obtain ⟨trace', -, hend⟩ :=
      ending_body verbosity i id k m₁ hlen hss
    have hsame := ending_statements_retraced verbosity m₁.store.scopes.size ss k
      (entered id (ps.zip args) m₁) trace trace'
    rw [hend, Ending.of_unwrapped (hsame.fails hq)]
    exact hsame.symm

theorem ending_of_reached {p q : Point} (h : Reached verbosity p q)
    (hq : (ending verbosity q).Fails) : (ending verbosity p).Same (ending verbosity q) := by
  induction h using Relation.ReflTransGen.head_induction_on with
  | refl => exact .refl _
  | head hstep _ ih => exact (ending_of_begins hstep (ih.symm.fails hq)).trans ih

end Eval

end Simian
