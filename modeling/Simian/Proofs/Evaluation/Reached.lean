import Simian.Proofs.Evaluation.Invariant
import Mathlib.Logic.Relation
import Mathlib.Order.WellFounded

/-!
# Points of an evaluation

While a program runs, its nodes are evaluated and its functions called one inside another. A point
is the begin of such a part, with the machine as it is there. However calls nest, a part begins
only so many parts inside one another: it is smaller than the whole, or calls may nest less deep
in it.
-/

namespace Simian

open Machine
set_option autoImplicit false

namespace Node

/-- The part of a node that is evaluated first, if it is by itself. -/
def first? : Node → Option Node
  | letStatement _ _ e | expressionStatement _ e | prefixOp _ _ e => some e
  | returnStatement _ value => value
  | infixOp _ _ left _ => some left
  | conditional _ condition _ _ => some condition
  | call _ callee _ => some callee
  | index _ collection _ => some collection
  | _ => none

/-- The part of a node that is evaluated whenever the first one is and gives no signal. -/
def second? : Node → Option Node
  | infixOp _ _ _ right => some right
  | index _ _ position => some position
  | _ => none

theorem sizeOf_lt_of_mem_parts {n c : Node} (h : c ∈ n.parts) : sizeOf c < sizeOf n := by
  have hlist {ns : List Node} (hc : c ∈ ns) : sizeOf c < sizeOf ns := List.sizeOf_lt_of_mem hc
  have hoption {o : Option Node} (hc : c ∈ o.toList) : sizeOf c < sizeOf o := by
    rw [Option.mem_toList] at hc
    subst hc
    rw [Option.some.sizeOf_spec]
    omega
  cases n <;> simp only [parts, List.mem_cons, List.not_mem_nil, or_false] at h
  case program | block | array =>
    have := hlist h
    simp only [program.sizeOf_spec, block.sizeOf_spec, array.sizeOf_spec]
    omega
  case returnStatement =>
    have := hoption h
    rw [returnStatement.sizeOf_spec]
    omega
  case call =>
    rw [call.sizeOf_spec]
    rcases h with rfl | h
    · omega
    · have := hlist h
      omega
  case conditional =>
    rw [conditional.sizeOf_spec]
    rcases h with rfl | rfl | h
    · omega
    · omega
    · have := hoption h
      omega
  case infixOp | index =>
    simp only [infixOp.sizeOf_spec, index.sizeOf_spec]
    rcases h with rfl | rfl <;> omega
  all_goals
    subst h
    simp only [letStatement.sizeOf_spec, expressionStatement.sizeOf_spec, prefixOp.sizeOf_spec]
    omega

theorem sizeOf_lt_of_statements? {n : Node} {ss : List Node} (h : n.statements? = some ss) :
    sizeOf ss < sizeOf n := by
  cases n with
  | program =>
    cases h
    rw [program.sizeOf_spec]
    omega
  | block =>
    cases h
    rw [block.sizeOf_spec]
    omega
  | _ => cases h

theorem mem_parts_of_first? {n c : Node} (h : n.first? = some c) : c ∈ n.parts := by
  cases n <;> cases h <;> exact List.mem_cons_self

theorem mem_parts_of_second? {n c : Node} (h : n.second? = some c) : c ∈ n.parts := by
  cases n <;> cases h <;> exact List.mem_cons_of_mem _ List.mem_cons_self

theorem mem_parts_of_statements? {n c : Node} {ss : List Node} (h : n.statements? = some ss)
    (hc : c ∈ ss) : c ∈ n.parts := by
  cases n <;> cases h <;> exact hc

theorem mem_parts_of_branch {t : Token} {c a d : Node} {b : Option Node} {p : Prop} [Decidable p]
    (h : (if p then some a else b) = some d) : d ∈ (conditional t c a b).parts := by
  refine List.mem_cons_of_mem c ?_
  split at h
  · cases h
    exact List.mem_cons_self
  · cases h
    exact List.mem_cons_of_mem a List.mem_cons_self

end Node

namespace Eval

/-- What is begun at a point. -/
inductive Task where
  | run (scope : ScopeId) (program : List Node)
  | node (scope : ScopeId) (n : Node)
  | statements (scope : ScopeId) (last : Value) (ss : List Node)
  | expressions (scope : ScopeId) (es : List Node)
  | call (f : Value) (args : List Value)

/-- A task with the depth to which calls can be nested in it and the machine where it is begun. -/
structure Point where
  task : Task
  limit : Nat
  machine : Machine

/-- The second point is the begin of a part of the task at the first one. -/
inductive Begins (verbosity : Nat) : Point → Point → Prop where
  | program {id : ScopeId} {program : List Node} {k : Nat} {text : Unit → String}
      {m m' : Machine} : note verbosity 1 text m = .ok () m' →
      Begins verbosity ⟨.run id program, k, m⟩ ⟨.statements id .null program, k, m'⟩
  | block {id : ScopeId} {n : Node} {ss : List Node} {k : Nat} {m : Machine} :
      n.statements? = some ss →
      Begins verbosity ⟨.node id n, k, m⟩ ⟨.statements id .null ss, k, m⟩
  | statement {id : ScopeId} {last : Value} {s : Node} {ss : List Node} {k : Nat} {m : Machine} :
      Begins verbosity ⟨.statements id last (s :: ss), k, m⟩ ⟨.node id s, k, m⟩
  | statements {id : ScopeId} {last v : Value} {s : Node} {ss : List Node} {k : Nat}
      {m m' : Machine} : node verbosity (callUpTo verbosity k) id s m = .ok v m' →
      v.isSignal = false →
      Begins verbosity ⟨.statements id last (s :: ss), k, m⟩ ⟨.statements id v ss, k, m'⟩
  | first {id : ScopeId} {n c : Node} {k : Nat} {m : Machine} : n.first? = some c →
      Begins verbosity ⟨.node id n, k, m⟩ ⟨.node id c, k, m⟩
  | second {id : ScopeId} {n c d : Node} {v : Value} {k : Nat} {m m' : Machine} :
      n.first? = some c → n.second? = some d →
      node verbosity (callUpTo verbosity k) id c m = .ok v m' → v.isSignal = false →
      Begins verbosity ⟨.node id n, k, m⟩ ⟨.node id d, k, m'⟩
  | branch {id : ScopeId} {t : Token} {c a d : Node} {b : Option Node} {v : Value} {k : Nat}
      {text : Unit → String} {m m' m'' : Machine} :
      node verbosity (callUpTo verbosity k) id c m = .ok v m' → v.isSignal = false →
      note verbosity 3 text m' = .ok () m'' → (if v.isTruthy then some a else b) = some d →
      Begins verbosity ⟨.node id (.conditional t c a b), k, m⟩ ⟨.node id d, k, m''⟩
  | elements {id : ScopeId} {t : Token} {es : List Node} {k : Nat} {m : Machine} :
      Begins verbosity ⟨.node id (.array t es), k, m⟩ ⟨.expressions id es, k, m⟩
  | arguments {id : ScopeId} {t : Token} {c : Node} {es : List Node} {f : Value} {k : Nat}
      {m m' : Machine} : node verbosity (callUpTo verbosity k) id c m = .ok f m' →
      f.isSignal = false →
      Begins verbosity ⟨.node id (.call t c es), k, m⟩ ⟨.expressions id es, k, m'⟩
  | expression {id : ScopeId} {e : Node} {es : List Node} {k : Nat} {m : Machine} :
      Begins verbosity ⟨.expressions id (e :: es), k, m⟩ ⟨.node id e, k, m⟩
  | expressions {id : ScopeId} {e : Node} {es : List Node} {v : Value} {k : Nat}
      {m m' : Machine} : node verbosity (callUpTo verbosity k) id e m = .ok v m' →
      v.isSignal = false →
      Begins verbosity ⟨.expressions id (e :: es), k, m⟩ ⟨.expressions id es, k, m'⟩
  | call {id : ScopeId} {t : Token} {c : Node} {es : List Node} {f : Value} {args : List Value}
      {k : Nat} {m m' m'' : Machine} : node verbosity (callUpTo verbosity k) id c m = .ok f m' →
      f.isSignal = false →
      expressions verbosity (callUpTo verbosity k) id es m' = .ok (.ok args) m'' →
      Begins verbosity ⟨.node id (.call t c es), k, m⟩ ⟨.call f args, k, m''⟩
  | body {i : Nat} {ps : List String} {code : Node} {id inner : ScopeId} {args : List Value}
      {ss : List Node} {k : Nat} {text : Unit → String} {m₁ m₂ m₃ m₄ : Machine} :
      args.length = ps.length → note verbosity 2 text m₁ = .ok () m₂ →
      newScope id m₂ = .ok inner m₃ → bindAll inner (ps.zip args) m₃ = .ok () m₄ →
      code.statements? = some ss →
      Begins verbosity ⟨.call (.function i ps code id) args, k + 1, m₁⟩
        ⟨.statements inner .null ss, k, m₄⟩

/-- The second point is reached in the course of the task at the first one. -/
abbrev Reached (verbosity : Nat) : Point → Point → Prop :=
  Relation.ReflTransGen (Begins verbosity)

/-! ## Termination -/

/-- How much there is to evaluate in a task itself. A call only begins the body of a function. -/
noncomputable def Task.size : Task → Nat
  | run _ program => sizeOf program + 1
  | node _ n => sizeOf n
  | statements _ _ ss => sizeOf ss
  | expressions _ es => sizeOf es
  | call _ _ => 0

/-- A part is smaller, or the body of a function, in which calls may nest one level less. -/
theorem Begins.decreases {verbosity : Nat} {p q : Point} (h : Begins verbosity p q) :
    Prod.Lex (· < ·) (· < ·) (q.limit, q.task.size) (p.limit, p.task.size) := by
  cases h with
  | program => exact .right _ (Nat.lt_succ_self _)
  | block hss => exact .right _ (Node.sizeOf_lt_of_statements? hss)
  | first hc => exact .right _ (Node.sizeOf_lt_of_mem_parts (Node.mem_parts_of_first? hc))
  | second _ hd => exact .right _ (Node.sizeOf_lt_of_mem_parts (Node.mem_parts_of_second? hd))
  | branch _ _ _ hd => exact .right _ (Node.sizeOf_lt_of_mem_parts (Node.mem_parts_of_branch hd))
  | body => exact .left _ _ (Nat.lt_succ_self _)
  | _ =>
    refine .right _ ?_
    simp only [Task.size, Node.array.sizeOf_spec, Node.call.sizeOf_spec, List.cons.sizeOf_spec]
    omega

/-- No evaluation begins parts inside one another without end. -/
theorem begins_wellFounded (verbosity : Nat) :
    WellFounded fun q p => Begins verbosity p q := by
  have hlex : WellFounded (Prod.Lex (· < ·) (· < ·) : Nat × Nat → Nat × Nat → Prop) :=
    (Prod.lex ⟨_, Nat.lt_wfRel.wf⟩ ⟨_, Nat.lt_wfRel.wf⟩).wf
  exact Subrelation.wf Begins.decreases
    (InvImage.wf (fun p : Point => (p.limit, p.task.size)) hlex)

end Eval

end Simian
