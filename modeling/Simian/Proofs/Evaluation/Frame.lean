import Simian.Proofs.Evaluation.Throughout

/-!
# What evaluation leaves alone

Evaluation binds names in the scope that it is given, namely those of the `let` statements outside
of functions, and in scopes that it makes itself. All other scopes stay as they are, and no scope
ever changes the scopes that enclose it.
-/

namespace Simian

open Machine Eval
set_option autoImplicit false

namespace Node

mutual

/-- The names of the `let` statements of a node that stand outside of every function. -/
def letNames : Node → List String
  | program ss | block _ ss => letNamesAll ss
  | letStatement _ name value => name.name :: value.letNames
  | returnStatement _ none => []
  | returnStatement _ (some value) => value.letNames
  | expressionStatement _ e | prefixOp _ _ e => e.letNames
  | array _ es => letNamesAll es
  | infixOp _ _ left right => left.letNames ++ right.letNames
  | conditional _ condition consequence none => condition.letNames ++ consequence.letNames
  | conditional _ condition consequence (some alternative) =>
    condition.letNames ++ (consequence.letNames ++ alternative.letNames)
  | call _ callee arguments => callee.letNames ++ letNamesAll arguments
  | index _ collection position => collection.letNames ++ position.letNames
  | ident _ | integer .. | string .. | boolean .. | function .. | datum _ => []

def letNamesAll : List Node → List String
  | [] => []
  | n :: ns => n.letNames ++ letNamesAll ns

end

theorem mem_letNamesAll {name : String} {n : Node} {ns : List Node} (hn : n ∈ ns)
    (h : name ∈ n.letNames) : name ∈ letNamesAll ns := by
  induction ns with
  | nil => exact absurd hn List.not_mem_nil
  | cons m ms ih =>
    rw [letNamesAll, List.mem_append]
    rcases List.mem_cons.mp hn with rfl | hn
    · exact .inl h
    · exact .inr (ih hn)

theorem mem_letNames_of_parts {n : Node} {name : String} (h : name ∈ letNamesAll n.parts) :
    name ∈ n.letNames := by
  cases n with
  | letStatement _ x value =>
    exact List.mem_cons_of_mem x.name (by simpa [parts, letNamesAll] using h)
  | returnStatement _ value =>
    cases value with
    | none => exact absurd h List.not_mem_nil
    | some value => simpa [parts, letNames, letNamesAll] using h
  | conditional _ _ _ alternative =>
    cases alternative <;> simpa [parts, letNames, letNamesAll] using h
  | program | block | array => exact h
  | ident | integer | string | boolean | function | datum => exact absurd h List.not_mem_nil
  | _ => simpa [parts, letNames, letNamesAll] using h

end Node

/-- From `s` to `t` scopes may be added. In the scopes of `s` names may be bound that are
`allowed` there; nothing else is changed. -/
structure Store.Frame (allowed : ScopeId → String → Prop) (s t : Store) : Prop where
  size_le : s.scopes.size ≤ t.scopes.size
  outer : ∀ i < s.scopes.size, (t.scope i).outer = (s.scope i).outer
  scope : ∀ i < s.scopes.size, (∀ name, ¬ allowed i name) → t.scope i = s.scope i
  free : ∀ i < s.scopes.size, ∀ name, ¬ allowed i name → t.own? i name = s.own? i name
  kept : ∀ i < s.scopes.size, ∀ name, (s.own? i name).isSome → (t.own? i name).isSome

namespace Store

variable {allowed allowed' : ScopeId → String → Prop} {s t : Store}

theorem Frame.refl (allowed : ScopeId → String → Prop) (s : Store) : Frame allowed s s :=
  ⟨Nat.le_refl _, fun _ _ => rfl, fun _ _ _ => rfl, fun _ _ _ _ => rfl, fun _ _ _ h => h⟩

theorem Frame.set (h : Frame allowed s t) {id : ScopeId} {name : String} (v : Value)
    (ha : allowed id name) : Frame allowed s (t.set id name v) := by
  refine ⟨?_, fun i hi => ?_, fun i hi hall => ?_, fun i hi other hfree => ?_,
    fun i hi other hsome => ?_⟩
  · rw [size_set]
    exact h.size_le
  · rw [outer_set]
    exact h.outer i hi
  · have hne : i ≠ id := by
      rintro rfl
      exact hall name ha
    rw [scope_set_ne name v hne]
    exact h.scope i hi hall
  · have hne : ¬ (i = id ∧ other = name ∧ id < t.scopes.size) := by
      rintro ⟨rfl, rfl, -⟩
      exact hfree ha
    rw [own?_set, if_neg hne]
    exact h.free i hi other hfree
  · rw [own?_set]
    split
    · rfl
    · exact h.kept i hi other hsome

theorem Frame.addScope (h : Frame allowed s t) (outer : List ScopeId) :
    Frame allowed s (t.addScope outer) := by
  have hscope : ∀ i < s.scopes.size, (t.addScope outer).scope i = t.scope i :=
    fun i hi => scope_addScope_of_lt (Nat.lt_of_lt_of_le hi h.size_le)
  refine ⟨?_, fun i hi => ?_, fun i hi hall => ?_, fun i hi name hfree => ?_,
    fun i hi name hsome => ?_⟩
  · rw [size_addScope]
    exact Nat.le_succ_of_le h.size_le
  · rw [hscope i hi]
    exact h.outer i hi
  · rw [hscope i hi]
    exact h.scope i hi hall
  · rw [own?_addScope]
    exact h.free i hi name hfree
  · rw [own?_addScope]
    exact h.kept i hi name hsome

/-- What is allowed matters in the scopes of `s` only. -/
theorem Frame.mono (h : Frame allowed s t)
    (ha : ∀ i < s.scopes.size, ∀ name, allowed i name → allowed' i name) :
    Frame allowed' s t where
  size_le := h.size_le
  outer := h.outer
  scope i hi hall := h.scope i hi fun name hn => hall name (ha i hi name hn)
  free i hi name hfree := h.free i hi name fun hn => hfree (ha i hi name hn)
  kept := h.kept

end Store

namespace Eval

/-- What evaluation does to the scopes of `s`, when it may bind names in them as `allowed` says and
any name in later scopes. -/
def frameInvariant (s : Store) (allowed : ScopeId → String → Prop)
    (hnew : ∀ i, s.scopes.size ≤ i → ∀ name, allowed i name) : Invariant where
  store t := s.Frame allowed t
  value _ := True
  node id n := ∀ name ∈ n.letNames, allowed id name
  binds := allowed
  fault _ := True
  part h hc name hn := h name (Node.mem_letNames_of_parts (Node.mem_letNamesAll hc hn))
  named h := h _ List.mem_cons_self
  unexpected _ := trivial
  tooDeep := trivial
  found _ _ := trivial
  bound h hn _ := h.set _ hn
  entered h _ := ⟨h.addScope _, hnew _ h.size_le, fun _ _ _ _ name _ => hnew _ h.size_le name,
    fun _ => trivial⟩
  null := trivial
  boolean _ := trivial
  builtin _ := trivial
  integer _ := trivial
  string _ := trivial
  closure _ _ := trivial
  array _ _ := trivial
  elements _ _ _ := trivial
  unwrapped _ := trivial
  prefixOp _ _ _ := .value trivial
  infixOp _ _ _ _ _ := .value trivial
  result _ _ _ := .value trivial

/-- A call changes no scope that existed. -/
theorem call_frame (verbosity limit : Nat) (f : Value) (args : List Value) (m : Machine) :
    m.store.Frame (fun _ _ => False) (leaves (callUpTo verbosity limit f args m)).store := by
  let I := frameInvariant m.store (fun i _ => m.store.scopes.size ≤ i) fun _ hi _ => hi
  have hkept : I.Kept _ (callUpTo verbosity limit f args m) :=
    Invariant.callUpTo_keeps limit trivial (fun _ _ => trivial) m (Store.Frame.refl _ m.store)
  apply Store.Frame.mono hkept.store
  intro i hi name hle
  exact absurd hi (Nat.not_lt.mpr hle)

/-- Evaluation of a node binds names of its `let` statements in the scope that it is given. -/
theorem node_frame (verbosity limit : Nat) (id : ScopeId) (n : Node) (m : Machine) :
    m.store.Frame (fun i name => i = id ∧ name ∈ n.letNames)
      (leaves (node verbosity (callUpTo verbosity limit) id n m)).store := by
  let allowed (i : ScopeId) (name : String) : Prop :=
    (i = id ∧ name ∈ n.letNames) ∨ m.store.scopes.size ≤ i
  let I := frameInvariant m.store allowed fun _ hi _ => .inr hi
  have hkept : I.Kept _ (node verbosity (callUpTo verbosity limit) id n m) :=
    Invariant.node_keeps limit (fun _ hn => .inl ⟨rfl, hn⟩) m (Store.Frame.refl allowed m.store)
  apply Store.Frame.mono hkept.store
  rintro i hi name (hn | hle)
  · exact hn
  · exact absurd hi (Nat.not_lt.mpr hle)

/-- Evaluation of a node changes no scope that existed but the one it is given, where it binds
names of the node's `let` statements only; a call changes no scope that existed. It is the same
whether they end in a value, in a signal or in a fault. -/
theorem evaluation_frame (verbosity limit : Nat) (m : Machine) :
    (∀ (id : ScopeId) (n : Node), m.store.Frame (fun i name => i = id ∧ name ∈ n.letNames)
      (leaves (node verbosity (callUpTo verbosity limit) id n m)).store) ∧
    ∀ (f : Value) (args : List Value), m.store.Frame (fun _ _ => False)
      (leaves (callUpTo verbosity limit f args m)).store :=
  ⟨fun id n => node_frame verbosity limit id n m,
    fun f args => call_frame verbosity limit f args m⟩

end Eval

end Simian
