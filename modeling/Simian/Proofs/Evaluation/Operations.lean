import Simian.Machine

/-!
# What operations keep

Operators, built-in functions and scopes make values of the values that they are given. A property
that reduced integers, constants and arrays of elements with the property have is one that they do
not leave, apart from the texts that are joined and the lengths that are measured.
-/

namespace Simian

set_option autoImplicit false

namespace Value

/-- What an operation on values gives: a value with the property, or an error. -/
inductive Settles (P : Value → Prop) : Value → Prop where
  | value {v : Value} : P v → Settles P v
  | error {e : RuntimeError} : Settles P (.error e)

/-- What the evaluation of a node gives: also a returned value with the property. -/
inductive Gives (P : Value → Prop) : Value → Prop where
  | value {v : Value} : P v → Gives P v
  | returned {v : Value} : P v → Gives P (.returned v)
  | error {e : RuntimeError} : Gives P (.error e)

/-- A property that operations on values with it do not leave. -/
structure Closed (P : Value → Prop) : Prop where
  null : P .null
  boolean (b : Bool) : P (.boolean b)
  wrapped (n : Int) : P (.integer (Int64.wrap n))
  elements {es : List Value} : P (.array es) → ∀ e ∈ es, P e
  array {es fs : List Value} : P (.array es) → (∀ e ∈ fs, P e) → P (.array fs)

variable {P : Value → Prop} {v : Value}

theorem Settles.gives (h : Settles P v) : Gives P v := by
  cases h with
  | value hv => exact .value hv
  | error => exact .error

theorem Gives.of_not_isSignal (h : Gives P v) (hs : v.isSignal = false) : P v := by
  cases h with
  | value hv => exact hv
  | returned => cases hs
  | error => cases hs

theorem Gives.unwrapped (h : Gives P v) (hP : ∀ w, P w → P w.unwrapped) :
    Settles P v.unwrapped := by
  cases h with
  | value hv => exact .value (hP _ hv)
  | returned hv => exact .value hv
  | error => exact .error

/-! ## Operators -/

theorem Closed.prefixOp (hP : Closed P) (op : String) (v : Value) :
    Settles P (v.prefixOp op) := by
  unfold Value.prefixOp
  split
  · exact .value (hP.boolean _)
  · split
    · split
      · exact .value (hP.wrapped _)
      · exact .error
    · exact .error

theorem Closed.integerInfix (hP : Closed P) (op : String) (a b : Int) :
    Settles P (Value.integerInfix op a b) := by
  have hquotient (q : Int) (hq : Int64.divide? a b = some q) : P (.integer q) := by
    by_cases hb : b = 0
    · simp [hb] at hq
    · rw [Int64.divide?_of_ne_zero a hb] at hq
      cases hq
      exact hP.wrapped _
  unfold Value.integerInfix
  repeat' split
  all_goals first
    | exact .value (hP.wrapped _)
    | exact .value (hP.boolean _)
    | exact .value (hquotient _ ‹_›)
    | exact .error

theorem Closed.infixOp (hP : Closed P) (op : String) {l r : Value}
    (happend : ∀ a b, l = .string a → r = .string b → P (.string (a ++ b))) :
    Settles P (Value.infixOp op l r) := by
  unfold Value.infixOp
  split
  · exact hP.integerInfix op _ _
  · split
    · exact .value (happend _ _ rfl rfl)
    · exact .error
  · split
    · exact .value (hP.boolean _)
    · exact .error

theorem eq_array_of_indexOperands {c i : Value} {es : List Value} {n : Int}
    (h : indexOperands c i = .ok (es, n)) : c = .array es := by
  unfold indexOperands at h
  split at h
  · split at h
    · cases h
      rfl
    · cases h
  · cases h

theorem elementAt_of {es : List Value} (hnull : P .null) (h : ∀ v ∈ es, P v) (i : Int) :
    P (elementAt es i) := by
  unfold elementAt
  split
  · exact hnull
  · rw [List.getD_eq_getElem?_getD]
    cases he : es[i.toNat]? with
    | none => exact hnull
    | some v => exact h v (List.mem_of_getElem? he)

end Value

/-! ## Built-in functions -/

namespace Builtin

open Value

variable {P : Value → Prop}

theorem onArray_settles (b : Builtin) {f : List Value → Value} {v : Value}
    (hf : ∀ es, v = .array es → P (f es)) : Settles P (onArray b f v) := by
  unfold onArray
  split
  · exact .value (hf _ rfl)
  · exact .error

theorem getD_null {o : Option Value} (hnull : P .null) (h : ∀ v ∈ o, P v) : P (o.getD .null) := by
  cases o with
  | none => exact hnull
  | some v => exact h v rfl

theorem result_settles (hP : Closed P) (b : Builtin) {args : List Value} (h : ∀ v ∈ args, P v)
    (hlen : b = .len → ∀ v ∈ args, Settles P (length v)) : Settles P (b.result args) := by
  unfold result
  split
  · exact hlen rfl _ List.mem_cons_self
  · apply onArray_settles
    rintro es rfl
    have hes := hP.elements (h _ List.mem_cons_self)
    exact getD_null hP.null fun v hv => hes v (List.mem_of_mem_head? hv)
  · apply onArray_settles
    rintro es rfl
    have hes := hP.elements (h _ List.mem_cons_self)
    exact getD_null hP.null fun v hv => hes v (List.mem_of_getLast? hv)
  · apply onArray_settles
    rintro es rfl
    have harray := h _ List.mem_cons_self
    split
    · exact hP.null
    · exact hP.array harray fun v hv => hP.elements harray v (List.mem_of_mem_tail hv)
  · next v item =>
    have hitem := h item (List.mem_cons_of_mem v List.mem_cons_self)
    apply onArray_settles
    rintro es rfl
    have harray := h _ List.mem_cons_self
    apply hP.array harray
    intro w hw
    rcases List.mem_append.mp hw with hw | hw
    · exact hP.elements harray w hw
    · exact List.mem_singleton.mp hw ▸ hitem
  · exact .value hP.null
  · exact .error

end Builtin

/-! ## Scopes -/

namespace Store

/-- Every scope binds its names to values with the property. -/
def Holds (P : Value → Prop) (s : Store) : Prop := ∀ id, ∀ p ∈ (s.scope id).bindings, P p.2

variable {P : Value → Prop} {s : Store}

theorem Holds.get? (h : s.Holds P) {id : ScopeId} {name : String} {v : Value}
    (hv : s.get? id name = some v) : P v := by
  obtain ⟨i, -, hi⟩ := List.exists_of_findSome?_eq_some hv
  exact h i (name, v) (Assoc.mem_of_lookup hi)

theorem Holds.set (h : s.Holds P) {id : ScopeId} {name : String} {v : Value} (hv : P v) :
    (s.set id name v).Holds P := by
  intro i p hp
  by_cases hi : i = id
  · subst hi
    simp only [scope, Store.set, Array.getD_eq_getD_getElem?, Array.getElem?_modify, if_true] at hp
    cases hs : s.scopes[i]? with
    | none => simp [hs] at hp
    | some inner =>
      have hin : s.scope i = inner := by simp [scope, hs]
      rw [hs] at hp
      rcases Assoc.mem_set hp with rfl | hp
      · exact hv
      · exact h i p (hin ▸ hp)
  · rw [scope_set_ne name v hi] at hp
    exact h i p hp

theorem Holds.addScope (h : s.Holds P) (outer : List ScopeId) : (s.addScope outer).Holds P := by
  intro i p hp
  rw [scope_addScope] at hp
  split at hp
  · exact absurd hp List.not_mem_nil
  · exact h i p hp

theorem holds_initial : Store.initial.Holds P := by
  intro i p hp
  have hnil : (Store.initial.scope i).bindings = [] := by cases i <;> rfl
  rw [hnil] at hp
  exact absurd hp List.not_mem_nil

end Store

end Simian
