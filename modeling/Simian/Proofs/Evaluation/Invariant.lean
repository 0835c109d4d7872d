import Simian.Eval
import Simian.Proofs.Evaluation.Operations
import Simian.Proofs.Steps

/-!
# What evaluation keeps

A property of stores, values and nodes that every single step of evaluation keeps is kept by whole
evaluations, however deep calls nest and whether they end in a value, in a signal or in a fault.
An invariant lists what has to be shown of the single steps; nothing here depends on which
property it is.
-/

namespace Simian

open Machine
set_option autoImplicit false

/-- The nodes that are evaluated for a node in its own scope. The body of a function is none. -/
def Node.parts : Node → List Node
  | program ss | block _ ss => ss
  | letStatement _ _ value => [value]
  | returnStatement _ value => value.toList
  | expressionStatement _ e | prefixOp _ _ e => [e]
  | array _ es => es
  | infixOp _ _ left right => [left, right]
  | conditional _ condition consequence alternative =>
    condition :: consequence :: alternative.toList
  | call _ callee arguments => callee :: arguments
  | index _ collection position => [collection, position]
  | ident _ | integer .. | string .. | boolean .. | function .. | datum _ => []

open Value

namespace Eval

/-- The machine that an evaluation leaves behind. -/
def leaves {α : Type} : EStateM.Result EvalFault Machine α → Machine
  | .ok _ m | .error _ m => m

/-- A property of evaluation, with what single steps have to keep of it. What built-in functions
give is left open. -/
structure StepInvariant where
  store : Store → Prop
  /-- The values that are bound, passed to calls and put into arrays. -/
  value : Value → Prop
  /-- The nodes that are evaluated in a scope. -/
  node : ScopeId → Node → Prop
  /-- The names that may be bound in a scope. -/
  binds : ScopeId → String → Prop
  fault : EvalFault → Prop
  part {id : ScopeId} {n c : Node} : node id n → c ∈ n.parts → node id c
  named {id : ScopeId} {t : Token} {x : Ident} {e : Node} :
    node id (.letStatement t x e) → binds id x.name
  unexpected {id : ScopeId} {tree : Tree} : node id (.datum tree) → fault (.unexpected tree)
  tooDeep : fault .tooDeep
  found {s : Store} {id : ScopeId} {name : String} {v : Value} :
    store s → s.get? id name = some v → value v
  bound {s : Store} {id : ScopeId} {name : String} {v : Value} :
    store s → binds id name → value v → store (s.set id name v)
  /-- A call makes a scope, in which it may bind every name and evaluate the body. -/
  entered {s : Store} {k : Nat} {ps : List String} {code : Node} {id : ScopeId} :
    store s → value (.function k ps code id) → store (s.addScope (s.chain id)) ∧
      (∀ name, binds s.scopes.size name) ∧
      (∀ ss, code.statements? = some ss → ∀ n ∈ ss, node s.scopes.size n) ∧
      (code.statements? = none → fault (.noStatements code))
  null : value .null
  boolean (b : Bool) : value (.boolean b)
  builtin (b : Builtin) : value (.builtin b)
  integer {id : ScopeId} {t : Token} {n : Int} : node id (.integer t n) → value (.integer n)
  string {id : ScopeId} {t : Token} {s : String} : node id (.string t s) → value (.string s)
  closure {id : ScopeId} {t : Token} {ps : List Ident} {body : Node} (k : Nat) :
    node id (.function t ps body) → value (.function k (ps.map Ident.name) body id)
  array {id : ScopeId} {t : Token} {ns : List Node} {es : List Value} : node id (.array t ns) →
    (∀ v ∈ es, value v) → value (.array es)
  elements {es : List Value} : value (.array es) → ∀ v ∈ es, value v
  unwrapped {v : Value} : value v → value v.unwrapped
  prefixOp (op : String) {v : Value} : value v → Settles value (v.prefixOp op)
  infixOp (op : String) {l r : Value} :
    value l → value r → Settles value (Value.infixOp op l r)

/-- A property that built-in functions keep as well, whatever they are given. -/
structure Invariant extends StepInvariant where
  result (b : Builtin) {args : List Value} :
    (∀ v ∈ args, value v) → Settles value (b.result args)

namespace StepInvariant

variable {I : StepInvariant} {α β : Type} {post : α → Prop} {post' : β → Prop}

/-- An end of evaluation that has the property. -/
inductive Kept (I : StepInvariant) (post : α → Prop) :
    EStateM.Result EvalFault Machine α → Prop where
  | ok {a : α} {m : Machine} : I.store m.store → post a → Kept I post (.ok a m)
  | error {f : EvalFault} {m : Machine} : I.store m.store → I.fault f → Kept I post (.error f m)

theorem Kept.store {r : EStateM.Result EvalFault Machine α} (h : I.Kept post r) :
    I.store (leaves r).store := by
  cases h with
  | ok hm => exact hm
  | error hm => exact hm

/-- From machines with the property the action ends with it, and its result satisfies `post`. -/
def Keeps (I : StepInvariant) (post : α → Prop) (p : EvalM α) : Prop :=
  ∀ m : Machine, I.store m.store → I.Kept post (p m)

/-! ## Sequences and single steps -/

theorem Kept.andThen {p : EvalM α} {f : α → EvalM β} {m : Machine} (h : I.Kept post (p m))
    (hf : ∀ a m', p m = .ok a m' → I.store m'.store → post a → I.Kept post' (f a m')) :
    I.Kept post' ((p >>= f) m) := by
  generalize hx : p m = x at h
  cases h with
  | ok hm' ha =>
    rw [bind_of_ok hx]
    exact hf _ _ hx hm' ha
  | error hm' hfault =>
    rw [bind_of_error hx]
    exact .error hm' hfault

theorem Kept.imp {r : EStateM.Result EvalFault Machine α} {post'' : α → Prop} (h : I.Kept post r)
    (hpost : ∀ a, post a → post'' a) : I.Kept post'' r := by
  cases h with
  | ok hm ha => exact .ok hm (hpost _ ha)
  | error hm hf => exact .error hm hf

/-- A part that is evaluated before the rest, which a signal leaves out. -/
theorem Kept.unless {p : EvalM Value} {k : Value → EvalM Value} {m : Machine}
    (h : I.Kept (Gives I.value) (p m))
    (hk : ∀ v m', p m = .ok v m' → v.isSignal = false → I.store m'.store → I.value v →
      I.Kept (Gives I.value) (k v m')) :
    I.Kept (Gives I.value) ((p >>= fun v => unlessSignal v (k v)) m) := by
  apply h.andThen
  intro v m' hp hm' hv
  unfold unlessSignal
  split
  · exact .ok hm' hv
  · next hs =>
    have hs' := Bool.eq_false_iff.mpr hs
    exact hk v m' hp hs' hm' (hv.of_not_isSignal hs')

theorem Kept.unwrapped {p : EvalM Value} {m : Machine} (h : I.Kept (Gives I.value) (p m)) :
    I.Kept (Settles I.value) ((do return (← p).unwrapped) m) :=
  h.andThen fun _ _ _ hm hv => .ok hm (hv.unwrapped fun _ => I.unwrapped)

theorem Kept.of_ok {p : EvalM α} {a : α} {m m' : Machine} (h : I.Kept post (p m))
    (hp : p m = .ok a m') : I.store m'.store ∧ post a := by
  rw [hp] at h
  cases h with
  | ok hm' ha => exact ⟨hm', ha⟩

theorem Keeps.ok {p : EvalM α} {a : α} {m m' : Machine} (h : I.Keeps post p)
    (hm : I.store m.store) (hp : p m = .ok a m') : I.store m'.store ∧ post a :=
  (h m hm).of_ok hp

theorem Keeps.andThen {p : EvalM α} {f : α → EvalM β} (h : I.Keeps post p)
    (hf : ∀ a, post a → I.Keeps post' (f a)) : I.Keeps post' (p >>= f) :=
  fun m hm => (h m hm).andThen fun a m' _ hm' ha => hf a ha m' hm'

theorem keeps_pure {a : α} (ha : post a) : I.Keeps post (pure a) := fun _ hm => .ok hm ha

theorem keeps_note (verbosity level : Nat) (text : Unit → String) :
    I.Keeps (fun _ => True) (note verbosity level text) := by
  intro m hm
  unfold note
  split
  · exact .ok hm trivial
  · exact .ok hm trivial

theorem keeps_print (text : String) : I.Keeps (fun _ => True) (print text) :=
  fun _ hm => .ok hm trivial

theorem keeps_lookup (id : ScopeId) (name : String) :
    I.Keeps (fun o => ∀ v ∈ o, I.value v) (lookup id name) :=
  fun _ hm => .ok hm fun _ hv => I.found hm hv

theorem keeps_bind {id : ScopeId} {name : String} {v : Value} (hn : I.binds id name)
    (hv : I.value v) : I.Keeps (fun _ => True) (bind id name v) :=
  fun _ hm => .ok (I.bound hm hn hv) trivial

theorem keeps_bindAll {id : ScopeId} {ps : List (String × Value)}
    (h : ∀ p ∈ ps, I.binds id p.1 ∧ I.value p.2) :
    I.Keeps (fun _ => True) (bindAll id ps) := by
  induction ps with
  | nil => exact keeps_pure trivial
  | cons p ps ih =>
    obtain ⟨hn, hv⟩ := h p List.mem_cons_self
    apply (keeps_bind hn hv).andThen
    intro _ _
    exact ih fun q hq => h q (List.mem_cons_of_mem p hq)

/-- The scope in which the body of a function can be run. -/
structure Enters (I : StepInvariant) (code : Node) (inner : ScopeId) : Prop where
  binds : ∀ name, I.binds inner name
  statements : ∀ ss, code.statements? = some ss → ∀ n ∈ ss, I.node inner n
  fault : code.statements? = none → I.fault (.noStatements code)

theorem keeps_newScope {k : Nat} {ps : List String} {code : Node} {id : ScopeId}
    (hf : I.value (.function k ps code id)) : I.Keeps (I.Enters code) (newScope id) := by
  intro m hm
  obtain ⟨hs, hb, hst, hfault⟩ := I.entered hm hf
  exact .ok hs ⟨hb, hst, hfault⟩

theorem Enters.keeps_bindAll {code : Node} {inner : ScopeId} (h : I.Enters code inner)
    (ps : List String) {args : List Value} (hargs : ∀ a ∈ args, I.value a) :
    I.Keeps (fun _ => True) (bindAll inner (ps.zip args)) :=
  StepInvariant.keeps_bindAll fun p hp => ⟨h.binds p.1, hargs p.2 (List.of_mem_zip hp).2⟩

theorem keeps_newFunction {id : ScopeId} {t : Token} {ps : List Ident} {body : Node}
    (h : I.node id (.function t ps body)) :
    I.Keeps I.value (newFunction (ps.map Ident.name) body id) :=
  fun m hm => .ok hm (I.closure m.functions h)

/-! ## Constructs -/

theorem identifier_keeps (scope : ScopeId) (name : String) :
    I.Keeps (Gives I.value) (identifier scope name) := by
  apply (keeps_lookup scope name).andThen
  intro o ho
  cases o with
  | some v => exact keeps_pure (.value (ho v rfl))
  | none =>
    cases Builtin.ofName? name with
    | some b => exact keeps_pure (.value (I.builtin b))
    | none => exact keeps_pure .error

theorem index_keeps (verbosity : Nat) {c : Value} (hc : I.value c) (i : Value) :
    I.Keeps (Gives I.value) (Eval.index verbosity c i) := by
  unfold Eval.index
  cases h : indexOperands c i with
  | error e => exact keeps_pure .error
  | ok p =>
    obtain ⟨es, n⟩ := p
    obtain rfl := eq_array_of_indexOperands h
    apply (keeps_note _ _ _).andThen
    intro _ _
    exact keeps_pure (.value (elementAt_of I.null (I.elements hc) n))

end StepInvariant

end Eval

end Simian
