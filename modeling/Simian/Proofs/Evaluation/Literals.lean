import Simian.Proofs.Evaluation.Contents
import Simian.Proofs.Grammar.Drawn
import Simian.Proofs.RoundTrip

/-!
# Functions and their literals

Every function comes from a literal of a program that was run and is shown by the text of this
literal. The text is a program of its own: a literal with the same names and a body of the same
shape, which makes a function that is shown by the same text again.

Where the literal stands does not matter. Whatever is inside of a parsed statement is derived from
the tokens of the source, and a derivation is all that an expression needs to be read back.
-/

namespace Simian

open Grammar Machine Value
set_option autoImplicit false

/-- The second node is the first one or lies inside of it, at any depth. -/
abbrev Node.Has : Node → Node → Prop := Relation.ReflTransGen fun n c => c ∈ n.nested

/-! ## Inside of derivations -/

namespace Grammar

variable {b : Binding}

/-- The node is derived from tokens of a source. -/
inductive Derived (b : Binding) (n : Node) : Prop where
  | expression {k : Nat} {ts : List Token} : Expr b k ts n → AllSpelled ts → Derived b n
  | block {ts : List Token} : Block b ts n → AllSpelled ts → Derived b n
  | statement {ts : List Token} : Statement b ts n → AllSpelled ts → Derived b n

theorem Items.derived {ts : List Token} {ns : List Node} (h : Items b ts ns)
    (hs : AllSpelled ts) : ∀ n ∈ ns, Derived b n := by
  cases h with
  | nil => exact fun _ hn => absurd hn List.not_mem_nil
  | one he => exact List.forall_mem_singleton.mpr (.expression he hs)
  | cons he _ hi =>
    exact List.forall_mem_cons.mpr ⟨.expression he hs.left, hi.derived hs.right.tail⟩

theorem Statements.derived {ts : List Token} {ns : List Node} (h : Statements b ts ns)
    (hs : AllSpelled ts) : ∀ n ∈ ns, Derived b n := by
  cases h with
  | nil => exact fun _ hn => absurd hn List.not_mem_nil
  | semicolon _ hst => exact hst.derived hs.tail
  | cons hn _ hst =>
    exact List.forall_mem_cons.mpr ⟨.statement hn hs.left, hst.derived hs.right⟩

theorem Expr.nested_derived {k : Nat} {ts : List Token} {n : Node} (h : Expr b k ts n)
    (hs : AllSpelled ts) : ∀ c ∈ n.nested, Derived b c := by
  cases h with
  | ident | integer | string | trueWord | falseWord => exact fun _ hc => absurd hc List.not_mem_nil
  | group _ he => exact he.nested_derived hs.tail.left
  | array _ hi => exact hi.derived hs.tail.left
  | prefixOp _ _ he => exact List.forall_mem_singleton.mpr (.expression he hs.tail)
  | infixOp _ _ hl hr =>
    simpa [Node.nested, Node.parts] using
      ⟨Derived.expression hl hs.left, Derived.expression hr hs.right.tail⟩
  | conditional _ _ hc _ hb =>
    simpa [Node.nested, Node.parts] using
      ⟨Derived.expression hc hs.left.tail.tail, Derived.block hb hs.right.tail⟩
  | alternative _ _ hc _ hb _ hd =>
    simpa [Node.nested, Node.parts] using
      ⟨Derived.expression hc hs.left.left.tail.tail, Derived.block hb hs.left.right.tail,
        Derived.block hd hs.right.tail⟩
  | function _ _ _ _ hb => exact List.forall_mem_singleton.mpr (.block hb hs.right.tail)
  | call hf _ hi =>
    exact List.forall_mem_cons.mpr ⟨.expression hf hs.left, hi.derived hs.right.tail.left⟩
  | index hc _ he =>
    simpa [Node.nested, Node.parts] using
      ⟨Derived.expression hc hs.left, Derived.expression he hs.right.tail.left⟩
termination_by ts.length

theorem Block.nested_derived {ts : List Token} {n : Node} (h : Block b ts n)
    (hs : AllSpelled ts) : ∀ c ∈ n.nested, Derived b c := by
  cases h with
  | intro _ hst _ => exact hst.derived hs.tail.left

theorem Statement.nested_derived {ts : List Token} {n : Node} (h : Statement b ts n)
    (hs : AllSpelled ts) : ∀ c ∈ n.nested, Derived b c := by
  cases h with
  | letStatement _ _ _ he =>
    exact List.forall_mem_singleton.mpr (.expression he hs.tail.tail.tail)
  | returnValue _ he => exact List.forall_mem_singleton.mpr (.expression he hs.tail)
  | returnBare => exact fun _ hc => absurd hc List.not_mem_nil
  | expression he => exact List.forall_mem_singleton.mpr (.expression he hs)

theorem Derived.inside {n c : Node} (h : Derived b n) (hc : n.Has c) : Derived b c := by
  induction hc with
  | refl => exact h
  | tail _ hstep ih =>
    cases ih with
    | expression he hs => exact he.nested_derived hs _ hstep
    | block hb hs => exact hb.nested_derived hs _ hstep
    | statement hst hs => exact hst.nested_derived hs _ hstep

/-- Only an expression is a function literal. -/
theorem Derived.function {t : Token} {is : List Ident} {code : Node}
    (h : Derived b (.function t is code)) :
    ∃ k ts, Expr b k ts (.function t is code) ∧ AllSpelled ts := by
  cases h with
  | expression he hs => exact ⟨_, _, he, hs⟩
  | block hb => cases hb
  | statement hst => cases hst

end Grammar

theorem derived_of_has {source : String} {parsed : Parsed} (h : parse source = .ok parsed)
    {root n : Node} (hroot : root ∈ parsed.statements) (hn : root.Has n) : Derived .ranked n := by
  obtain ⟨us, hus, hst⟩ := statement_of_parse h root hroot
  exact (Derived.statement hst fun t ht => (tokenize_spelled source).2 t (hus ht)).inside hn

/-- The text of an expression, on its own, is parsed strictly to the expression up to tokens. -/
theorem Grammar.Expr.parseStrict_render {b : Binding} {k : Nat} {ts : List Token} {n : Node}
    (h : Expr b k ts n) (hs : AllSpelled ts) :
    ∃ t m, parseStrict n.render = .ok [.expressionStatement t m] ∧ m.shape = n.shape := by
  have hreads : Rereads (.expressionStatement Node.blank n) :=
    .of_expression (h.yields hs) (h.not_endsInSemicolon hs)
  obtain ⟨ms, hms, hshape⟩ := parse_joinStatements (List.forall_mem_singleton.mpr hreads)
  obtain ⟨s, rfl⟩ := List.length_eq_one_iff.mp (by simpa using congrArg List.length hshape)
  have hs : s.shape = (Node.expressionStatement Node.blank n).shape := by simpa using hshape
  cases Node.paired_of_mapTokens_eq hs with
  | expressionStatement he => exact ⟨_, _, parseStrict_eq_ok_iff.mpr hms, he⟩

/-! ## Functions inside of values -/

/-- Every function in the value, at any depth, satisfies `F`. -/
inductive Value.Functions (F : Value → Prop) : Value → Prop where
  | integer (n : Int) : Functions F (.integer n)
  | boolean (b : Bool) : Functions F (.boolean b)
  | null : Functions F .null
  | string (s : String) : Functions F (.string s)
  | array {es : List Value} : (∀ e ∈ es, Functions F e) → Functions F (.array es)
  | function {k : Nat} {ps : List String} {code : Node} {scope : ScopeId} :
      F (.function k ps code scope) → Functions F (.function k ps code scope)
  | builtin (b : Builtin) : Functions F (.builtin b)
  | returned {v : Value} : Functions F v → Functions F (.returned v)
  | error (e : RuntimeError) : Functions F (.error e)

namespace Value

variable {F G : Value → Prop} {v : Value}

theorem Functions.imp (h : v.Functions F) (hF : ∀ f, F f → G f) : v.Functions G := by
  induction h with
  | array _ ih => exact .array ih
  | function hf => exact .function (hF _ hf)
  | returned _ ih => exact .returned ih
  | _ => constructor

theorem Functions.here {k : Nat} {ps : List String} {code : Node} {scope : ScopeId}
    (h : (Value.function k ps code scope).Functions F) : F (.function k ps code scope) := by
  cases h with
  | function hf => exact hf

theorem Functions.unwrapped (h : v.Functions F) : v.unwrapped.Functions F := by
  cases h with
  | returned hv => exact hv
  | array he => exact .array he
  | function hf => exact .function hf
  | _ => constructor

theorem functions_closed : Closed (Functions F) where
  null := .null
  boolean := .boolean
  wrapped _ := .integer _
  elements h := by
    cases h with
    | array he => exact he
  array _ he := .array he

end Value

theorem Store.Holds.imp {P Q : Value → Prop} {s : Store} (h : s.Holds P) (hP : ∀ v, P v → Q v) :
    s.Holds Q := fun id p hp => hP p.2 (h id p hp)

/-! ## The literals of programs -/

/-- The literal makes the function, with some number and in some scope. -/
inductive Makes : Node → Value → Prop where
  | intro (t : Token) (is : List Ident) (code : Node) (k : Nat) (scope : ScopeId) :
      Makes (.function t is code) (.function k (is.map Ident.name) code scope)

/-- A program with `P` was parsed from some source and has the node in it. -/
def Occurs (P : List Node → Prop) (n : Node) : Prop :=
  ∃ source parsed root, parse source = .ok parsed ∧ P parsed.statements ∧
    root ∈ parsed.statements ∧ root.Has n

/-- The function comes from a literal of a program with `P`. -/
def FromLiteral (P : List Node → Prop) (f : Value) : Prop := ∃ n, Occurs P n ∧ Makes n f

section
variable {P : List Node → Prop}

theorem Occurs.nested {n c : Node} (h : Occurs P n) (hc : c ∈ n.nested) : Occurs P c := by
  obtain ⟨source, parsed, root, hparse, hP, hroot, hn⟩ := h
  exact ⟨source, parsed, root, hparse, hP, hroot, hn.tail hc⟩

theorem FromLiteral.body {k : Nat} {ps : List String} {code : Node} {scope : ScopeId}
    (h : FromLiteral P (.function k ps code scope)) : Occurs P code := by
  obtain ⟨n, hoccurs, hmakes⟩ := h
  cases hmakes
  exact hoccurs.nested List.mem_cons_self

end

/-- The text is parsed strictly to one literal, with these names and a body of the shape of `code`.
Wherever this literal is run, it makes a function that shows the text again. -/
def ReadsAs (is : List Ident) (code : Node) (text : String) : Prop :=
  ∃ t u js body, parseStrict text = .ok [.expressionStatement t (.function u js body)] ∧
    js.map Ident.name = is.map Ident.name ∧ body.shape = code.shape ∧
    ∀ limit verbosity id m, ∃ f m',
      Eval.runUpTo limit verbosity id [.expressionStatement t (.function u js body)] m = .ok f m' ∧
      Makes (.function u js body) f ∧ f.inspect = text

/-- The function comes from a literal of a program with `P` and shows the text of the literal,
which is read back as the literal. -/
def ReadsBack (P : List Node → Prop) (f : Value) : Prop :=
  ∃ t is code, Occurs P (.function t is code) ∧ Makes (.function t is code) f ∧
    f.inspect = (Node.function t is code).render ∧ ReadsAs is code f.inspect

theorem Makes.inspect_eq {n : Node} {f : Value} (h : Makes n f) : f.inspect = n.render := by
  cases h with
  | intro => rfl

namespace Eval

/-- A program that is a function literal gives the function that the literal makes. -/
theorem makes_of_runUpTo (limit verbosity : Nat) (id : ScopeId) (t u : Token) (is : List Ident)
    (code : Node) (m : Machine) : ∃ f m',
      runUpTo limit verbosity id [.expressionStatement t (.function u is code)] m = .ok f m' ∧
      Makes (.function u is code) f := by
  have hgives (m' : Machine) :
      settleDepth (do return (← statements verbosity (callUpTo verbosity limit) id .null
        [.expressionStatement t (.function u is code)]).unwrapped) m' =
      .ok (.function m'.functions (is.map Ident.name) code id)
        { m' with functions := m'.functions + 1 } := rfl
  exact ⟨_, _, (bind_of_ok (note_eq _ _ _ _)).trans
    ((bind_of_ok (hgives _)).trans (bind_of_ok (note_eq _ _ _ _))), .intro u is code _ id⟩

end Eval

theorem Grammar.Derived.readsAs {b : Binding} {t : Token} {is : List Ident} {code : Node}
    (h : Derived b (.function t is code)) :
    ReadsAs is code (Node.function t is code).render := by
  obtain ⟨k, ts, he, hs⟩ := h.function
  obtain ⟨s, n, hparse, hshape⟩ := he.parseStrict_render hs
  have htext : n.render = (Node.function t is code).render := Node.render_eq_of_shape hshape
  cases Node.paired_of_mapTokens_eq hshape with
  | function hnames hbody =>
    refine ⟨_, _, _, _, hparse, hnames, hbody, fun limit verbosity id m => ?_⟩
    obtain ⟨f, m', hrun, hmakes⟩ := Eval.makes_of_runUpTo limit verbosity id s _ _ _ m
    exact ⟨f, m', hrun, hmakes, hmakes.inspect_eq.trans htext⟩

theorem FromLiteral.readsBack {P : List Node → Prop} {f : Value} (h : FromLiteral P f) :
    ReadsBack P f := by
  obtain ⟨n, hoccurs, hmakes⟩ := h
  have htext := hmakes.inspect_eq
  cases hmakes with
  | intro t is code k scope =>
    obtain ⟨source, parsed, root, hparse, -, hroot, hn⟩ := id hoccurs
    have hread := (derived_of_has hparse hroot hn).readsAs
    exact ⟨t, is, code, hoccurs, .intro t is code k scope, htext, htext ▸ hread⟩

/-! ## Literals and the functions of runs -/

namespace Eval

variable {P : List Node → Prop}

/-- What is evaluated occurs in programs with `P`, and so do the literals of all functions. -/
def literalInvariant (P : List Node → Prop) : Invariant where
  store := Store.Holds (Functions (FromLiteral P))
  value := Functions (FromLiteral P)
  node _ := Occurs P
  binds _ _ := True
  fault _ := True
  part h hc := h.nested (Node.parts_subset_nested _ hc)
  named _ := trivial
  unexpected _ := trivial
  tooDeep := trivial
  found hs hv := hs.get? hv
  bound hs _ := hs.set
  entered hs hf := ⟨hs.addScope _, fun _ => trivial, fun _ hss _ hn =>
    hf.here.body.nested (Node.parts_subset_nested _ (Node.mem_parts_of_statements? hss hn)),
    fun _ => trivial⟩
  null := .null
  boolean := .boolean
  builtin := .builtin
  integer _ := .integer _
  string _ := .string _
  closure k h := .function ⟨_, h, .intro _ _ _ k _⟩
  array _ := .array
  elements := functions_closed.elements
  unwrapped := Functions.unwrapped
  prefixOp op v _ := functions_closed.prefixOp op v
  infixOp op _ _ _ _ := functions_closed.infixOp op fun _ _ _ _ => .string _
  result b _ hargs := b.result_settles functions_closed hargs fun _ v _ => by
    cases v <;> first | exact .value (.integer _) | exact .error

variable {verbosity : Nat}

/-- What is run has `P`. -/
def Runs (P : List Node → Prop) (p : Point) : Prop :=
  ∃ id program, p.task = .run id program ∧ P program

/-- The values that are bound at a point, passed to a call there, or given by a node satisfy `V`. -/
structure Holding (V : Value → Prop) (verbosity : Nat) (p : Point) : Prop where
  bindings : p.machine.store.Holds V
  arguments : ∀ f args, p.task = .call f args → V f ∧ ∀ a ∈ args, V a
  given : ∀ id n v m, p.task = .node id n →
    node verbosity (callUpTo verbosity p.limit) id n p.machine = .ok v m → V v

theorem Holding.imp {V W : Value → Prop} {p : Point} (h : Holding V verbosity p)
    (hV : ∀ v, V v → W v) : Holding W verbosity p where
  bindings := h.bindings.imp hV
  arguments f args hp := by
    obtain ⟨hf, hargs⟩ := h.arguments f args hp
    exact ⟨hV f hf, fun a ha => hV a (hargs a ha)⟩
  given id n v m hp hv := hV v (h.given id n v m hp hv)

theorem at_run {source : String} {parsed : Parsed} (h : parse source = .ok parsed)
    (hP : P parsed.statements) (id : ScopeId) (limit : Nat) {m : Machine}
    (hm : m.store.Holds (Functions (FromLiteral P))) :
    (literalInvariant P).At ⟨.run id parsed.statements, limit, m⟩ :=
  ⟨hm, fun n hn => ⟨source, parsed, n, h, hP, hn, .refl⟩⟩

theorem functions_of_gives {F : Value → Prop} {v : Value} (h : Gives (Functions F) v) :
    Functions F v := by
  cases h with
  | value hv => exact hv
  | returned hv => exact .returned hv
  | error => exact .error _

theorem holding_of_at {p : Point} (h : (literalInvariant P).At p) :
    Holding (Functions (FromLiteral P)) verbosity p := by
  obtain ⟨task, k, m⟩ := p
  refine ⟨h.store, ?_, ?_⟩
  · rintro f args rfl
    exact h.task
  · rintro id n v m' rfl hv
    have hends : (literalInvariant P).Kept _ (node verbosity (callUpTo verbosity k) id n m) :=
      h.ends ((literalInvariant P).suits _)
    exact functions_of_gives (hends.of_ok hv).2

/-- Every function reads back as the literal that it comes from, whatever turns an interpreter has
taken in whose scopes all functions come from literals of programs that were run. In a further run
the functions do so at every point, in every argument and in every value given on the way, in the
scopes that the run leaves and in the value that it gives. -/
theorem functions_read_back {m m' : Machine} (hm : m.store.Holds (Functions (FromLiteral P)))
    (h : Relation.ReflTransGen (Turn verbosity (Runs P) (Functions (FromLiteral P))) m m') :
    m'.store.Holds (Functions (ReadsBack P)) ∧
    ∀ (source : String) (parsed : Parsed) (limit : Nat) (id : ScopeId),
      parse source = .ok parsed → P parsed.statements →
      (∀ p, Reached verbosity ⟨.run id parsed.statements, limit, m'⟩ p →
        Holding (Functions (ReadsBack P)) verbosity p) ∧
      (leaves (runUpTo limit verbosity id parsed.statements m')).store.Holds
        (Functions (ReadsBack P)) ∧
      ∀ v m'', runUpTo limit verbosity id parsed.statements m' = .ok v m'' →
        Functions (ReadsBack P) v := by
  have hback (v : Value) (hv : Functions (FromLiteral P) v) : Functions (ReadsBack P) v :=
    hv.imp fun _ hf => hf.readsBack
  have hends {source : String} {parsed : Parsed} {a : Machine} (hp : parse source = .ok parsed)
      (hP : P parsed.statements) (id : ScopeId) (limit : Nat)
      (ha : a.store.Holds (Functions (FromLiteral P))) :
      (literalInvariant P).Kept (Settles (Functions (FromLiteral P)))
        (runUpTo limit verbosity id parsed.statements a) :=
    (at_run hp hP id limit ha).ends ((literalInvariant P).suits _)
  have hm' : m'.store.Holds (Functions (FromLiteral P)) := by
    refine holds_of_turns (fun source parsed id limit a hp hr ha => ?_) h hm
    obtain ⟨_, _, htask, hP⟩ := hr
    cases htask
    exact (hends hp hP id limit ha).store
  refine ⟨hm'.imp hback, fun source parsed limit id hp hP => ⟨fun p hr => ?_, ?_, ?_⟩⟩
  · have hat := (at_run hp hP id limit hm').reached ((literalInvariant P).suits _) hr
    exact (holding_of_at hat).imp hback
  · exact (hends hp hP id limit hm').store.imp hback
  · intro v m'' hv
    exact hback v (functions_of_gives (((hends hp hP id limit hm').of_ok hv).2.gives))

/-- A function that another one gave, kept in an array: its text shows the literal inside. -/
theorem functions_read_back_inner : ∃ first second m v m',
    parse "let f = fn(x) \x7b fn(y) \x7b -x + y \x7d \x7d" = .ok first ∧
    parse "[f(1)]" = .ok second ∧
    Machine.initial.store.Holds
      (Functions (FromLiteral fun ss => ss = first.statements ∨ ss = second.statements)) ∧
    Relation.ReflTransGen (Turn 0 (Runs fun ss => ss = first.statements ∨ ss = second.statements)
      (Functions (FromLiteral fun ss => ss = first.statements ∨ ss = second.statements)))
      Machine.initial m ∧
    runUpTo 3 0 Store.globalScope second.statements m = .ok v m' ∧
    v.inspect = "[fn(y) \x7b ((-x) + y) \x7d]" ∧
    Functions (ReadsBack fun ss => ss = first.statements ∨ ss = second.statements) v := by
  obtain ⟨first, second, hfirst, hsecond, v, m', hrun, htext⟩ : ∃ first second,
      parse "let f = fn(x) \x7b fn(y) \x7b -x + y \x7d \x7d" = .ok first ∧
      parse "[f(1)]" = .ok second ∧ ∃ v m', runUpTo 3 0 Store.globalScope second.statements
        (leaves (runUpTo 3 0 Store.globalScope first.statements .initial)) = .ok v m' ∧
        v.inspect = "[fn(y) \x7b ((-x) + y) \x7d]" :=
    ⟨_, _, rfl, rfl, _, _, rfl, by decide +kernel⟩
  have hturn : Turn 0 (Runs fun ss => ss = first.statements ∨ ss = second.statements)
      (Functions (FromLiteral fun ss => ss = first.statements ∨ ss = second.statements))
      Machine.initial _ :=
    .run Store.globalScope 3 Machine.initial hfirst ⟨_, _, rfl, .inl rfl⟩
  have hread := (functions_read_back Store.holds_initial (.single hturn)).2
  exact ⟨first, second, _, v, m', hfirst, hsecond, Store.holds_initial, .single hturn, hrun, htext,
    (hread _ second 3 Store.globalScope hsecond (.inr rfl)).2.2 v m' hrun⟩

end Eval

end Simian
