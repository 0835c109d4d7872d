import Simian.Store
import Simian.Value.Builtins
import Simian.Value.Operators

/-!
# The state of evaluation

What evaluation changes: the scopes, the number of functions made, the text printed and the
trace. A trace note has a level, and it is made only when the verbosity reaches that level;
evaluation reads neither the trace nor the printed text. Faults are what no value can stand for:
a stored tree without a meaning and calls nested too deep.
-/

namespace Simian

set_option autoImplicit false

structure Note where
  level : Nat
  text : String
  deriving DecidableEq, Repr

structure Machine where
  store : Store
  /-- How many functions were made. -/
  functions : Nat
  output : String
  trace : Array Note

inductive EvalFault where
  /-- A stored value where a node belongs. -/
  | unexpected (tree : Tree)
  /-- A node without statements where a block or a program belongs. -/
  | noStatements (node : Node)
  /-- More calls inside one another than the limit. -/
  | tooDeep

/-- The full name of the class of a stored value. -/
def Tree.className (t : Tree) : String :=
  match t with
  | .token _ => "monkey.token.Token"
  | .node cls _ _ => "monkey.ast." ++ cls.name
  | t => t.sort

def EvalFault.message : EvalFault → String
  | unexpected t => "evaluate: unexpected node type <class '" ++ t.className ++ "'>"
  | noStatements n => "no statements in " ++ n.toTree.className
  | tooDeep => RuntimeError.tooDeep.message

abbrev EvalM := EStateM EvalFault Machine

namespace Machine

def initial : Machine := ⟨.initial, 0, "", #[]⟩

/-- The notes as text, each on a line of its own. -/
def traceText (m : Machine) : String := String.join (m.trace.toList.map fun n => n.text ++ "\n")

def print (text : String) : EvalM Unit :=
  fun m => .ok () { m with output := m.output ++ text }

/-- Makes a note, its text formed only if the verbosity reaches its level. -/
def note (verbosity level : Nat) (text : Unit → String) : EvalM Unit := fun m =>
  if level ≤ verbosity then .ok () { m with trace := m.trace.push ⟨level, text ()⟩ } else .ok () m

theorem note_eq (verbosity level : Nat) (text : Unit → String) (m : Machine) :
    note verbosity level text m = .ok () { m with
      trace := if level ≤ verbosity then m.trace.push ⟨level, text ()⟩ else m.trace } := by
  unfold note
  split <;> rfl

def lookup (id : ScopeId) (name : String) : EvalM (Option Value) :=
  fun m => .ok (m.store.get? id name) m

def bind (id : ScopeId) (name : String) (v : Value) : EvalM Unit :=
  fun m => .ok () { m with store := m.store.set id name v }

def bindAll (id : ScopeId) : List (String × Value) → EvalM Unit
  | [] => return ()
  | (name, v) :: rest => do
    bind id name v
    bindAll id rest

/-- A scope that no other scope encloses. -/
def newRoot : EvalM ScopeId := fun m =>
  .ok m.store.scopes.size { m with store := m.store.addScope [] }

/-- A scope inside scope `id`. -/
def newScope (id : ScopeId) : EvalM ScopeId := fun m =>
  .ok m.store.scopes.size { m with store := m.store.addScope (m.store.chain id) }

/-- A function that differs from every other one. -/
def newFunction (parameters : List String) (body : Node) (scope : ScopeId) : EvalM Value :=
  fun m => .ok (.function m.functions parameters body scope) { m with functions := m.functions + 1 }

end Machine

end Simian
