import Simian.Parser
import Simian.Proofs.Evaluation.Throughout

/-!
# What is stored

Every value that evaluation stores is made of integers, of functions and of values that have
nothing inside. What is asked of integers and of the bodies of functions holds everywhere in the
store, once it holds of every integer literal and of every reduced result; only the length of an
argument is an integer that comes from elsewhere.
-/

namespace Simian

open Machine
set_option autoImplicit false

namespace Value

/-- A value whose integers satisfy `W` and whose functions have bodies with `B`, at any depth. -/
inductive Every (W : Int → Prop) (B : Node → Prop) : Value → Prop where
  | integer {n : Int} : W n → Every W B (.integer n)
  | boolean (b : Bool) : Every W B (.boolean b)
  | null : Every W B .null
  | string (s : String) : Every W B (.string s)
  | array {es : List Value} : (∀ e ∈ es, Every W B e) → Every W B (.array es)
  | function {k : Nat} {ps : List String} {code : Node} {scope : ScopeId} : B code →
      Every W B (.function k ps code scope)
  | builtin (b : Builtin) : Every W B (.builtin b)
  | returned {v : Value} : Every W B v → Every W B (.returned v)
  | error (e : RuntimeError) : Every W B (.error e)

variable {W : Int → Prop} {B : Node → Prop}

theorem Every.code {k : Nat} {ps : List String} {code : Node} {scope : ScopeId}
    (h : Every W B (.function k ps code scope)) : B code := by
  cases h with
  | function hc => exact hc

theorem Every.unwrapped {v : Value} (h : Every W B v) : Every W B v.unwrapped := by
  cases h with
  | returned hv => exact hv
  | integer hn => exact .integer hn
  | array he => exact .array he
  | function hc => exact .function hc
  | _ => constructor

theorem every_closed (hW : ∀ n, W (Int64.wrap n)) : Closed (Every W B) where
  null := .null
  boolean := .boolean
  wrapped n := .integer (hW n)
  elements h := by
    cases h with
    | array he => exact he
  array _ he := .array he

/-- The length of a value is an integer, if it has one. -/
theorem length_settles {v : Value} (h : ∀ n, Builtin.length v = .integer n → W n) :
    Settles (Every W B) (Builtin.length v) := by
  cases v with
  | string s => exact .value (.integer (h _ rfl))
  | array es => exact .value (.integer (h _ rfl))
  | _ => exact .error

end Value

namespace Eval

open Value

/-- What is asked of the integers, the bodies of functions and the nodes of an evaluation. -/
structure Contents where
  integer : Int → Prop
  body : Node → Prop
  node : Node → Prop
  fault : EvalFault → Prop
  wrap (n : Int) : integer (Int64.wrap n)
  part {n c : Node} : node n → c ∈ n.parts → node c
  literal {t : Token} {n : Int} : node (.integer t n) → integer n
  closure {t : Token} {ps : List Ident} {code : Node} : node (.function t ps code) → body code
  statements {code : Node} {ss : List Node} : body code → code.statements? = some ss →
    ∀ n ∈ ss, node n
  unexpected {tree : Tree} : node (.datum tree) → fault (.unexpected tree)
  noStatements {code : Node} : body code → code.statements? = none → fault (.noStatements code)
  tooDeep : fault .tooDeep

namespace Contents

variable {C : Contents} {verbosity : Nat}

abbrev value (C : Contents) : Value → Prop := Every C.integer C.body

/-- Everything that is stored has contents as asked. -/
def invariant (C : Contents) : StepInvariant where
  store := Store.Holds C.value
  value := C.value
  node _ := C.node
  binds _ _ := True
  fault := C.fault
  part := C.part
  named _ := trivial
  unexpected := C.unexpected
  tooDeep := C.tooDeep
  found hs hv := hs.get? hv
  bound hs _ := hs.set
  entered hs hf :=
    ⟨hs.addScope _, fun _ => trivial, fun _ => C.statements hf.code, C.noStatements hf.code⟩
  null := .null
  boolean := .boolean
  builtin := .builtin
  integer h := .integer (C.literal h)
  string _ := .string _
  closure _ h := .function (C.closure h)
  array _ := .array
  elements := (every_closed C.wrap).elements
  unwrapped := Every.unwrapped
  prefixOp op v _ := (every_closed C.wrap).prefixOp op v
  infixOp op _ _ _ _ := (every_closed C.wrap).infixOp op fun _ _ _ _ => .string _

/-- The arguments of every call of `len` from a point on have lengths as asked. -/
def Measured (C : Contents) (verbosity : Nat) (p : Point) : Prop :=
  ∀ args k m, Reached verbosity p ⟨.call (.builtin .len) args, k, m⟩ →
    ∀ v ∈ args, ∀ n, Builtin.length v = .integer n → C.integer n

theorem suits (C : Contents) {p : Point} (h : C.Measured verbosity p) :
    C.invariant.Suits verbosity p := by
  intro b args k m hr hargs
  apply b.result_settles (every_closed C.wrap) hargs
  rintro rfl v hv
  exact length_settles (h args k m hr v hv)

end Contents

/-- One turn of an interpreter: what survives in a source is run, a scope is made, or a value is
bound. Of a run `ran` is required, and of a value that is bound from outside `given`. -/
inductive Turn (verbosity : Nat) (ran : Point → Prop) (given : Value → Prop) :
    Machine → Machine → Prop where
  | run {source : String} {parsed : Parsed} (id : ScopeId) (limit : Nat) (m : Machine) :
      parse source = .ok parsed → ran ⟨.run id parsed.statements, limit, m⟩ →
      Turn verbosity ran given m (leaves (runUpTo limit verbosity id parsed.statements m))
  | newRoot (m : Machine) : Turn verbosity ran given m (leaves (Machine.newRoot m))
  | newScope (id : ScopeId) (m : Machine) :
      Turn verbosity ran given m (leaves (Machine.newScope id m))
  | bind (id : ScopeId) (name : String) {v : Value} (m : Machine) : given v →
      Turn verbosity ran given m (leaves (Machine.bind id name v m))

/-- Turns keep what holds of every value in the scopes, once runs keep it. -/
theorem holds_of_turns {verbosity : Nat} {ran : Point → Prop} {V : Value → Prop} {m m' : Machine}
    (hrun : ∀ source parsed id limit m, parse source = .ok parsed →
      ran ⟨.run id parsed.statements, limit, m⟩ → m.store.Holds V →
      (leaves (runUpTo limit verbosity id parsed.statements m)).store.Holds V)
    (h : Relation.ReflTransGen (Turn verbosity ran V) m m') (hm : m.store.Holds V) :
    m'.store.Holds V := by
  induction h with
  | refl => exact hm
  | tail _ hturn ih =>
    cases hturn with
    | run id limit _ hp hr => exact hrun _ _ id limit _ hp hr ih
    | newRoot => exact ih.addScope []
    | newScope id => exact ih.addScope _
    | bind id name _ hv => exact ih.set hv

namespace Contents

variable {C : Contents} {verbosity : Nat} {ran : Point → Prop} {m m' : Machine}
  (hparsed : ∀ source parsed, parse source = .ok parsed → ∀ n ∈ parsed.statements, C.node n)
  (hran : ∀ p, ran p → C.Measured verbosity p)
include hparsed

theorem at_run {source : String} {parsed : Parsed} (h : parse source = .ok parsed) (id : ScopeId)
    (limit : Nat) (hm : m.store.Holds C.value) :
    C.invariant.At ⟨.run id parsed.statements, limit, m⟩ :=
  ⟨hm, hparsed source parsed h⟩

include hran

theorem holds_of_turns (h : Relation.ReflTransGen (Turn verbosity ran C.value) m m')
    (hm : m.store.Holds C.value) : m'.store.Holds C.value := by
  refine Eval.holds_of_turns (fun source parsed id limit m hp hr hm => ?_) h hm
  have hends : C.invariant.Kept _ (runUpTo limit verbosity id parsed.statements m) :=
    (at_run hparsed hp id limit hm).ends (C.suits (hran _ hr))
  exact hends.store

end Contents

end Eval

end Simian
