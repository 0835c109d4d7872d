import Simian.Proofs.Evaluation.Operations

/-!
# Values without signals

A signal is the result of an evaluation and never a part of a value. Operators and built-in
functions that are given values without signals make no others, unless they make an error, and
scopes that hold no signal are asked for none.
-/

namespace Simian

set_option autoImplicit false

namespace Value

mutual

/-- The value is no signal and has none inside. -/
def SignalFree : Value → Prop
  | array es => AllSignalFree es
  | returned _ | error _ => False
  | _ => True

def AllSignalFree : List Value → Prop
  | [] => True
  | v :: vs => v.SignalFree ∧ AllSignalFree vs

end

/-- The result of an operation on values without signals. -/
inductive Settled : Value → Prop where
  | value {v : Value} : v.SignalFree → Settled v
  | error {e : RuntimeError} : Settled (.error e)

theorem allSignalFree_iff {vs : List Value} : AllSignalFree vs ↔ ∀ v ∈ vs, v.SignalFree := by
  induction vs with
  | nil => simp [AllSignalFree]
  | cons v vs ih => rw [AllSignalFree, ih, List.forall_mem_cons]

theorem signalFree_array {es : List Value} : (array es).SignalFree ↔ ∀ v ∈ es, v.SignalFree := by
  rw [SignalFree, allSignalFree_iff]

@[simp] theorem signalFree_integer (n : Int) : (integer n).SignalFree := trivial

@[simp] theorem signalFree_boolean (b : Bool) : (boolean b).SignalFree := trivial

@[simp] theorem signalFree_null : null.SignalFree := trivial

@[simp] theorem signalFree_string (s : String) : (string s).SignalFree := trivial

@[simp] theorem signalFree_builtin (b : Builtin) : (builtin b).SignalFree := trivial

@[simp] theorem signalFree_function (id : Nat) (ps : List String) (body : Node) (scope : ScopeId) :
    (function id ps body scope).SignalFree := trivial

@[simp] theorem not_signalFree_returned (v : Value) : ¬ (returned v).SignalFree := fun h => h

@[simp] theorem not_signalFree_error (e : RuntimeError) : ¬ (error e).SignalFree := fun h => h

theorem SignalFree.isSignal {v : Value} (h : v.SignalFree) : v.isSignal = false := by
  cases v <;> simp_all [Value.isSignal]

theorem signalFree_closed : Closed SignalFree where
  null := signalFree_null
  boolean := signalFree_boolean
  wrapped _ := signalFree_integer _
  elements h := signalFree_array.mp h
  array _ h := signalFree_array.mpr h

theorem Settles.settled {v : Value} (h : Settles SignalFree v) : Settled v := by
  cases h with
  | value hv => exact .value hv
  | error => exact .error

/-! ## Operations -/

theorem prefixOp_settled (op : String) (v : Value) : Settled (v.prefixOp op) :=
  (signalFree_closed.prefixOp op v).settled

theorem infixOp_settled (op : String) (l r : Value) : Settled (infixOp op l r) :=
  (signalFree_closed.infixOp op fun _ _ _ _ => signalFree_string _).settled

end Value

theorem Builtin.result_settled (b : Builtin) {args : List Value} (h : ∀ v ∈ args, v.SignalFree) :
    Value.Settled (b.result args) := by
  refine (b.result_settles Value.signalFree_closed h fun _ v _ => ?_).settled
  cases v with
  | string s => exact .value (Value.signalFree_integer _)
  | array es => exact .value (Value.signalFree_integer _)
  | _ => exact .error

/-! ## Scopes -/

namespace Store

/-- No scope binds a name to a value with a signal. -/
def SignalFree (s : Store) : Prop := ∀ id, ∀ p ∈ (s.scope id).bindings, p.2.SignalFree

variable {s : Store} (h : s.SignalFree)
include h

theorem SignalFree.get? {id : ScopeId} {name : String} {v : Value}
    (hv : s.get? id name = some v) : v.SignalFree := Holds.get? h hv

theorem SignalFree.set {id : ScopeId} {name : String} {v : Value} (hv : v.SignalFree) :
    (s.set id name v).SignalFree := Holds.set h hv

theorem SignalFree.addScope (outer : List ScopeId) : (s.addScope outer).SignalFree :=
  Holds.addScope h outer

end Store

theorem Store.signalFree_initial : Store.initial.SignalFree := Store.holds_initial

end Simian
