import Simian.Parser
import Simian.Proofs.Evaluation.SignalFree
import Simian.Proofs.Evaluation.Throughout

/-!
# Signals are not stored

However often an interpreter is used, no scope binds a signal, no array holds one and no call is
given one, at any point of any run. What a `return` hands on is no signal either, and no run ends in
a returned value.
-/

namespace Simian

open Machine Value
set_option autoImplicit false

theorem Value.Settled.settles {v : Value} (h : v.Settled) : Settles SignalFree v := by
  cases h with
  | value hv => exact .value hv
  | error => exact .error

theorem Value.Settles.ne_returned {v w : Value} (h : Settles SignalFree v) : v ≠ .returned w := by
  rintro rfl
  cases h with
  | value hv => exact not_signalFree_returned w hv

namespace Eval

/-- Nothing that is stored is or holds a signal. -/
def signalInvariant : Invariant where
  store := Store.SignalFree
  value := SignalFree
  node _ _ := True
  binds _ _ := True
  fault _ := True
  part _ _ := trivial
  named _ := trivial
  unexpected _ := trivial
  tooDeep := trivial
  found hs hv := hs.get? hv
  bound hs _ hv := hs.set hv
  entered hs _ := ⟨hs.addScope _, fun _ => trivial, fun _ _ _ _ => trivial, fun _ => trivial⟩
  null := signalFree_null
  boolean := signalFree_boolean
  builtin := signalFree_builtin
  integer _ := signalFree_integer _
  string _ := signalFree_string _
  closure k _ := signalFree_function k _ _ _
  array _ h := signalFree_array.mpr h
  elements h := signalFree_array.mp h
  unwrapped h := by rwa [unwrapped_of_not_isSignal h.isSignal]
  prefixOp op v _ := (prefixOp_settled op v).settles
  infixOp op l r _ _ := (infixOp_settled op l r).settles
  result b _ h := (b.result_settled h).settles

/-- What an interpreter is used for: programs are run, scopes are made and values without signals
are bound in them. -/
inductive Used (limit verbosity : Nat) : Machine → Machine → Prop where
  | run (id : ScopeId) (program : List Node) (m : Machine) :
      Used limit verbosity m (leaves (runUpTo limit verbosity id program m))
  | newRoot (m : Machine) : Used limit verbosity m (leaves (Machine.newRoot m))
  | newScope (id : ScopeId) (m : Machine) :
      Used limit verbosity m (leaves (Machine.newScope id m))
  | bind (id : ScopeId) (name : String) {v : Value} (m : Machine) : v.SignalFree →
      Used limit verbosity m (leaves (Machine.bind id name v m))

variable {limit verbosity : Nat} {m m' : Machine}

theorem Used.signalFree (h : Used limit verbosity m m') (hm : m.store.SignalFree) :
    m'.store.SignalFree := by
  cases h with
  | run id program =>
    have hrun : signalInvariant.Keeps _ (runUpTo limit verbosity id program) :=
      Invariant.runUpTo_keeps limit fun _ _ => trivial
    exact (hrun m hm).store
  | newRoot => exact hm.addScope []
  | newScope id => exact hm.addScope _
  | bind id name _ hv => exact hm.set hv

/-- No signal is stored at a point, or given to a call, and none is inside of what a node gives. -/
structure Unsignalled (verbosity : Nat) (p : Point) : Prop where
  bindings : p.machine.store.SignalFree
  arguments : ∀ f args, p.task = .call f args → f.SignalFree ∧ ∀ a ∈ args, a.SignalFree
  left : ∀ id n, p.task = .node id n →
    (leaves (node verbosity (callUpTo verbosity p.limit) id n p.machine)).store.SignalFree
  given : ∀ id n v m, p.task = .node id n →
    node verbosity (callUpTo verbosity p.limit) id n p.machine = .ok v m → Gives SignalFree v

theorem unsignalled_of_at {p : Point} (h : signalInvariant.At p) : Unsignalled verbosity p := by
  have hnode (id : ScopeId) (n : Node) :
      signalInvariant.Keeps _ (node verbosity (callUpTo verbosity p.limit) id n) :=
    Invariant.node_keeps p.limit trivial
  refine ⟨h.store, fun f args ht => ?_, fun id n _ => ?_, fun id n v m _ hv => ?_⟩
  · have hadmits := h.task
    rw [ht] at hadmits
    exact hadmits
  · exact (hnode id n p.machine h.store).store
  · exact ((hnode id n).ok h.store hv).2

/-- After any use of an interpreter whose scopes held no signal they hold none; at no point of a
further run is a signal stored or given to a call; and a run gives a value without signals or an
error. -/
theorem unsignalled_of_used (hm : m.store.SignalFree)
    (h : Relation.ReflTransGen (Used limit verbosity) m m') :
    m'.store.SignalFree ∧ ∀ (id : ScopeId) (program : List Node),
      (∀ p, Reached verbosity ⟨.run id program, limit, m'⟩ p → Unsignalled verbosity p) ∧
      ∀ v m'', runUpTo limit verbosity id program m' = .ok v m'' →
        Settles SignalFree v ∧ ∀ w, v ≠ .returned w := by
  have hm' : m'.store.SignalFree := by
    induction h with
    | refl => exact hm
    | tail _ hused ih => exact hused.signalFree ih
  refine ⟨hm', fun id program => ⟨fun p hp => ?_, fun v m'' hv => ?_⟩⟩
  · have hstart : signalInvariant.At ⟨.run id program, limit, m'⟩ := ⟨hm', fun _ _ => trivial⟩
    exact unsignalled_of_at (hstart.reached (signalInvariant.suits _) hp)
  · have hrun : signalInvariant.Keeps _ (runUpTo limit verbosity id program) :=
      Invariant.runUpTo_keeps limit fun _ _ => trivial
    have hsettles := (hrun.ok hm' hv).2
    exact ⟨hsettles, fun w => hsettles.ne_returned⟩

/-- A `return` inside an array inside an argument, and after it a run that nests calls too deep. -/
theorem unsignalled_of_used_nested : ∃ first second,
    parseStrict "let f = fn(x) \x7b push([x], [1, if (x) \x7b return [x] \x7d]) \x7d; let a = f(2)" =
      .ok first ∧
    parseStrict "let g = fn(x) \x7b let b = x; g(x) \x7d; g(a)" = .ok second ∧
    Machine.initial.store.SignalFree ∧
    (leaves (runUpTo 3 0 Store.globalScope second
      (leaves (runUpTo 3 0 Store.globalScope first Machine.initial)))).store.SignalFree := by
  obtain ⟨first, hfirst⟩ : ∃ first, parseStrict
      "let f = fn(x) \x7b push([x], [1, if (x) \x7b return [x] \x7d]) \x7d; let a = f(2)" =
        .ok first := ⟨_, rfl⟩
  obtain ⟨second, hsecond⟩ : ∃ second, parseStrict
      "let g = fn(x) \x7b let b = x; g(x) \x7d; g(a)" = .ok second := ⟨_, rfl⟩
  refine ⟨first, second, hfirst, hsecond, Store.signalFree_initial, ?_⟩
  have hone : Used 3 0 Machine.initial _ := .run Store.globalScope first Machine.initial
  have htwo : Used 3 0 _ _ := .run Store.globalScope second
    (leaves (runUpTo 3 0 Store.globalScope first Machine.initial))
  exact (unsignalled_of_used Store.signalFree_initial (.tail (.single hone) htwo)).1

end Eval

end Simian
