import Simian.Assoc
import Simian.Value

/-!
# Scopes

The scopes that were ever made, each with its bindings and the scopes that enclose it from the
nearest to the outermost. A name is looked up in the scope itself and then outward; it is always
bound in the scope itself. Scope `0` is the global one.
-/

namespace Simian

set_option autoImplicit false

structure Scope where
  bindings : List (String × Value)
  /-- The enclosing scopes, the nearest first. -/
  outer : List ScopeId

structure Store where
  scopes : Array Scope

namespace Store

/-- A store with nothing but an empty global scope. -/
def initial : Store := ⟨#[⟨[], []⟩]⟩

/-- The scope where the programs of a session bind their names. -/
def globalScope : ScopeId := 0

def scope (s : Store) (id : ScopeId) : Scope := s.scopes.getD id ⟨[], []⟩

/-- Adds an empty scope enclosed by `outer`; its number is the number of scopes so far. -/
def addScope (s : Store) (outer : List ScopeId) : Store := ⟨s.scopes.push ⟨[], outer⟩⟩

/-- The enclosing scopes of a scope made inside scope `id`. -/
def chain (s : Store) (id : ScopeId) : List ScopeId := id :: (s.scope id).outer

def set (s : Store) (id : ScopeId) (name : String) (v : Value) : Store :=
  ⟨s.scopes.modify id fun scope => { scope with bindings := Assoc.set name v scope.bindings }⟩

/-- The value bound to a name in the scope itself. -/
def own? (s : Store) (id : ScopeId) (name : String) : Option Value :=
  (s.scope id).bindings.lookup name

/-- The value bound to a name in the nearest scope that binds it. -/
def get? (s : Store) (id : ScopeId) (name : String) : Option Value :=
  (s.chain id).findSome? fun i => s.own? i name

/-- The names bound in the scope itself, in the order of their code points. -/
def names (s : Store) (id : ScopeId) : List String :=
  (Assoc.keys (s.scope id).bindings).mergeSort (fun a b => decide (a ≤ b))

@[simp] theorem scope_addScope_size (s : Store) (outer : List ScopeId) :
    (s.addScope outer).scope s.scopes.size = ⟨[], outer⟩ := by simp [scope, addScope]

theorem scope_addScope_of_lt {s : Store} {outer : List ScopeId} {id : ScopeId}
    (h : id < s.scopes.size) : (s.addScope outer).scope id = s.scope id := by
  simp [scope, addScope, Array.getElem?_push, Nat.ne_of_lt h]

theorem scope_set_ne {s : Store} {id other : ScopeId} (name : String) (v : Value)
    (h : other ≠ id) : (s.set id name v).scope other = s.scope other := by
  simp [scope, set, Array.getElem?_modify, Ne.symm h]

theorem outer_set (s : Store) (id other : ScopeId) (name : String) (v : Value) :
    ((s.set id name v).scope other).outer = (s.scope other).outer := by
  by_cases h : id = other
  · subst h
    simp only [scope, set, Array.getD_eq_getD_getElem?, Array.getElem?_modify]
    cases s.scopes[id]? <;> simp
  · rw [scope_set_ne name v (Ne.symm h)]

theorem own?_set_self {s : Store} {id : ScopeId} (h : id < s.scopes.size) (name : String)
    (v : Value) : (s.set id name v).own? id name = some v := by
  have hs : s.scopes[id]? = some s.scopes[id] := Array.getElem?_eq_getElem h
  simp [own?, scope, set, Array.getElem?_modify, hs]

theorem own?_set_ne_name (s : Store) (id other : ScopeId) {name another : String} (v : Value)
    (h : another ≠ name) : (s.set id name v).own? other another = s.own? other another := by
  by_cases hi : id = other
  · subst hi
    simp only [own?, scope, set, Array.getD_eq_getD_getElem?, Array.getElem?_modify]
    cases s.scopes[id]? with
    | none => rfl
    | some scope => simpa using Assoc.lookup_set_ne v scope.bindings h
  · rw [own?, own?, scope_set_ne name v (Ne.symm hi)]

theorem own?_set_ne_scope (s : Store) {id other : ScopeId} (name another : String) (v : Value)
    (h : other ≠ id) : (s.set id name v).own? other another = s.own? other another := by
  rw [own?, own?, scope_set_ne name v h]

theorem chain_set (s : Store) (id other : ScopeId) (name : String) (v : Value) :
    (s.set id name v).chain other = s.chain other := by
  rw [chain, chain, outer_set]

/-- A scope answers with its own binding before any enclosing scope is asked. -/
theorem get?_of_own? {s : Store} {id : ScopeId} {name : String} {v : Value}
    (h : s.own? id name = some v) : s.get? id name = some v := by
  simp [get?, chain, h]

theorem get?_set_self {s : Store} {id : ScopeId} (h : id < s.scopes.size) (name : String)
    (v : Value) : (s.set id name v).get? id name = some v :=
  get?_of_own? (own?_set_self h name v)

theorem get?_set_ne {s : Store} {id other : ScopeId} {name another : String} (v : Value)
    (h : another ≠ name) : (s.set id name v).get? other another = s.get? other another := by
  rw [get?, get?, chain_set]
  congr 1
  funext i
  exact own?_set_ne_name s id i v h

@[simp] theorem size_set (s : Store) (id : ScopeId) (name : String) (v : Value) :
    (s.set id name v).scopes.size = s.scopes.size := by simp [set]

@[simp] theorem size_addScope (s : Store) (outer : List ScopeId) :
    (s.addScope outer).scopes.size = s.scopes.size + 1 := by simp [addScope]

theorem scope_of_le {s : Store} {id : ScopeId} (h : s.scopes.size ≤ id) :
    s.scope id = ⟨[], []⟩ := by
  rw [scope, Array.getD_eq_getD_getElem?, Array.getElem?_eq_none h]
  rfl

theorem own?_of_le {s : Store} {id : ScopeId} (h : s.scopes.size ≤ id) (name : String) :
    s.own? id name = none := by
  rw [own?, scope_of_le h]
  rfl

/-- Only a scope of the store takes a binding. -/
theorem own?_set (s : Store) (id other : ScopeId) (name another : String) (v : Value) :
    (s.set id name v).own? other another =
      if other = id ∧ another = name ∧ id < s.scopes.size then some v
      else s.own? other another := by
  by_cases hid : other = id
  · subst hid
    by_cases hname : another = name
    · subst hname
      by_cases hlt : other < s.scopes.size
      · rw [own?_set_self hlt, if_pos ⟨rfl, rfl, hlt⟩]
      · have hle : s.scopes.size ≤ other := Nat.not_lt.mp hlt
        rw [if_neg fun h => hlt h.2.2, own?_of_le hle, own?_of_le (by rwa [size_set])]
    · rw [if_neg fun h => hname h.2.1, own?_set_ne_name s other other v hname]
  · rw [if_neg fun h => hid h.1, own?_set_ne_scope s name another v hid]

theorem scope_addScope (s : Store) (outer : List ScopeId) (id : ScopeId) :
    (s.addScope outer).scope id = if id = s.scopes.size then ⟨[], outer⟩ else s.scope id := by
  simp only [scope, addScope, Array.getD_eq_getD_getElem?, Array.getElem?_push]
  split <;> rfl

theorem own?_addScope (s : Store) (outer : List ScopeId) (id : ScopeId) (name : String) :
    (s.addScope outer).own? id name = s.own? id name := by
  rw [own?, scope_addScope]
  split
  · next h => rw [own?_of_le (Nat.le_of_eq h.symm)]; rfl
  · rfl

end Store

end Simian
