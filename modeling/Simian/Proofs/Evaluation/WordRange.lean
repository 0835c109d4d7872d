import Simian.Proofs.Evaluation.Contents
import Simian.Proofs.Grammar.Drawn

/-!
# Integers stay in the 64-bit range

Numerals are read into the range and every operation reduces its result, so the integers that an
interpreter holds stay in it however it is used, as long as none of them is the length of a string
or of an array that no host can hold.
-/

namespace Simian

open Machine Value
set_option autoImplicit false

def Int64.InRange (n : Int) : Prop := Int64.min ≤ n ∧ n ≤ Int64.max

def Node.LiteralInRange (n : Node) : Prop := ∀ v ∈ n.literal?, Int64.InRange v

theorem Node.Everywhere.literalInRange {n : Node} {Q : Token → Prop} (h : n.Everywhere (Drawn Q)) :
    n.Everywhere LiteralInRange := by
  apply h.imp
  intro c hc v hv
  obtain ⟨hmin, hmax⟩ := hc.literal v hv
  exact ⟨Int.le_trans (by decide) hmin, hmax⟩

/-- A string or an array that a host can hold. -/
def Value.Holdable : Value → Prop
  | .string s => s.length ≤ Int64.max
  | .array es => es.length ≤ Int64.max
  | _ => True

theorem Value.Holdable.length {v : Value} (h : v.Holdable) {n : Int}
    (hn : Builtin.length v = .integer n) : Int64.InRange n := by
  have hmin : Int64.min ≤ 0 := by decide
  cases v with
  | string s =>
    cases hn
    exact ⟨Int.le_trans hmin (Int.natCast_nonneg _), h⟩
  | array es =>
    cases hn
    exact ⟨Int.le_trans hmin (Int.natCast_nonneg _), h⟩
  | _ => cases hn

namespace Eval

/-- Integers of the range, and functions whose bodies hold numerals of the range. -/
def wordContents : Contents where
  integer := Int64.InRange
  body := Node.Everywhere Node.LiteralInRange
  node := Node.Everywhere Node.LiteralInRange
  fault _ := True
  wrap := Int64.wrap_bounds
  part h hc := h.inside _ (Node.parts_subset_nested _ hc)
  literal h := h.here _ rfl
  closure h := h.inside _ List.mem_cons_self
  statements h hss _ hn :=
    h.inside _ (Node.parts_subset_nested _ (Node.mem_parts_of_statements? hss hn))
  unexpected _ := trivial
  noStatements _ _ := trivial
  tooDeep := trivial

/-- Every integer in the value, at any depth and in its functions, is in the range. -/
abbrev Words : Value → Prop := wordContents.value

/-- From a point on, calls are given only strings and arrays that a host can hold. -/
def Hosted (verbosity : Nat) (p : Point) : Prop :=
  ∀ f args k m, Reached verbosity p ⟨.call f args, k, m⟩ → ∀ a ∈ args, a.Holdable

/-- The integers that are bound at a point, passed to a call there, or given by a node are in the
range. -/
structure Ranged (verbosity : Nat) (p : Point) : Prop where
  bindings : p.machine.store.Holds Words
  arguments : ∀ f args, p.task = .call f args → Words f ∧ ∀ a ∈ args, Words a
  given : ∀ id n v m, p.task = .node id n →
    node verbosity (callUpTo verbosity p.limit) id n p.machine = .ok v m → Gives Words v

variable {verbosity : Nat}

theorem Hosted.measured {p : Point} (h : Hosted verbosity p) : wordContents.Measured verbosity p :=
  fun args k m hr v hv _ hn => (h _ args k m hr v hv).length hn

theorem Hosted.reached {p q : Point} (h : Hosted verbosity p) (hq : Reached verbosity p q) :
    Hosted verbosity q := fun f args k m hr => h f args k m (hq.trans hr)

theorem ranged_of_at {p : Point} (h : wordContents.invariant.At p) (hosted : Hosted verbosity p) :
    Ranged verbosity p := by
  obtain ⟨task, k, m⟩ := p
  refine ⟨h.store, ?_, ?_⟩
  · rintro f args rfl
    exact h.task
  · rintro id n v m' rfl hv
    have hends : wordContents.invariant.Kept _ (node verbosity (callUpTo verbosity k) id n m) :=
      h.ends (wordContents.suits hosted.measured)
    exact (hends.of_ok hv).2

/-- No integer leaves the range. After any turns of an interpreter in whose scopes all integers are
in the range, in which no run passes a string or an array that no host can hold, they still are;
and in a further run of this kind they are at every point, in every argument, in every value given
on the way, in the scopes that the run leaves and in the value that it gives. -/
theorem integers_in_range {m m' : Machine} (hm : m.store.Holds Words)
    (h : Relation.ReflTransGen (Turn verbosity (Hosted verbosity) Words) m m') :
    m'.store.Holds Words ∧ ∀ (source : String) (parsed : Parsed) (limit : Nat) (id : ScopeId),
      parse source = .ok parsed → Hosted verbosity ⟨.run id parsed.statements, limit, m'⟩ →
      (∀ p, Reached verbosity ⟨.run id parsed.statements, limit, m'⟩ p → Ranged verbosity p) ∧
      (leaves (runUpTo limit verbosity id parsed.statements m')).store.Holds Words ∧
      ∀ v m'', runUpTo limit verbosity id parsed.statements m' = .ok v m'' → Words v := by
  have hparsed (source : String) (parsed : Parsed) (hp : parse source = .ok parsed) :
      ∀ n ∈ parsed.statements, wordContents.node n := by
    intro n hn
    have hdrawn : n.Everywhere (Node.Drawn fun _ => True) :=
      drawn_of_parse hp (fun _ _ => trivial) n hn
    exact hdrawn.literalInRange
  have hm' := Contents.holds_of_turns hparsed (fun _ => Hosted.measured) h hm
  refine ⟨hm', fun source parsed limit id hp hosted => ?_⟩
  have hat := Contents.at_run hparsed hp id limit hm'
  have hsuits := wordContents.suits hosted.measured
  have hends : wordContents.invariant.Kept _
      (runUpTo limit verbosity id parsed.statements m') := hat.ends hsuits
  refine ⟨fun p hr => ranged_of_at (hat.reached hsuits hr) (hosted.reached hr), hends.store,
    fun v m'' hv => ?_⟩
  cases (hends.of_ok hv).2 with
  | value hw => exact hw
  | error => exact .error _

end Eval

/-! ## Programs without strings and arrays -/

/-- The node makes neither a string nor an array itself. -/
def Node.Plain : Node → Prop
  | .string .. | .array .. => False
  | _ => True

/-- A value that is neither a string nor an array, and whose function makes none. -/
inductive Value.Plain : Value → Prop where
  | integer (n : Int) : Plain (.integer n)
  | boolean (b : Bool) : Plain (.boolean b)
  | null : Plain .null
  | function {k : Nat} {ps : List String} {code : Node} {scope : ScopeId} :
      code.Everywhere Node.Plain → Plain (.function k ps code scope)
  | builtin (b : Builtin) : Plain (.builtin b)
  | returned {v : Value} : Plain v → Plain (.returned v)
  | error (e : RuntimeError) : Plain (.error e)

namespace Value

theorem plain_closed : Closed Plain where
  null := .null
  boolean := .boolean
  wrapped _ := .integer _
  elements h := nomatch h
  array h := nomatch h

theorem Plain.code {k : Nat} {ps : List String} {code : Node} {scope : ScopeId}
    (h : Plain (.function k ps code scope)) : code.Everywhere Node.Plain := by
  cases h with
  | function hc => exact hc

theorem Plain.unwrapped {v : Value} (h : v.Plain) : v.unwrapped.Plain := by
  cases h with
  | returned hv => exact hv
  | function hc => exact .function hc
  | _ => constructor

theorem Plain.holdable {v : Value} (h : v.Plain) : v.Holdable := by
  cases h <;> trivial

end Value

namespace Eval

def plainInvariant : StepInvariant where
  store := Store.Holds Plain
  value := Plain
  node _ := Node.Everywhere Node.Plain
  binds _ _ := True
  fault _ := True
  part h hc := h.inside _ (Node.parts_subset_nested _ hc)
  named _ := trivial
  unexpected _ := trivial
  tooDeep := trivial
  found hs hv := hs.get? hv
  bound hs _ := hs.set
  entered hs hf := ⟨hs.addScope _, fun _ => trivial, fun _ hss _ hn =>
    hf.code.inside _ (Node.parts_subset_nested _ (Node.mem_parts_of_statements? hss hn)),
    fun _ => trivial⟩
  null := .null
  boolean := .boolean
  builtin := .builtin
  integer _ := .integer _
  string h := h.here.elim
  closure _ h := .function (h.inside _ List.mem_cons_self)
  array h := h.here.elim
  elements := plain_closed.elements
  unwrapped := Plain.unwrapped
  prefixOp op v _ := plain_closed.prefixOp op v
  infixOp op _ _ hl _ := plain_closed.infixOp op fun _ _ h _ => nomatch h ▸ hl

variable {verbosity : Nat}

theorem plainInvariant_suits (p : Point) : plainInvariant.Suits verbosity p := by
  intro b args k m _ hargs
  apply b.result_settles plain_closed hargs
  rintro rfl v hv
  cases hargs v hv <;> exact .error

/-- A program without strings and arrays, in scopes without them, needs no host of a size. -/
theorem hosted_of_plain {p : Point} (h : plainInvariant.At p) : Hosted verbosity p := by
  intro f args k m hr a ha
  have hadmits := (h.reached (plainInvariant_suits p) hr).task
  exact (hadmits.2 a ha).holdable

/-- A square that exceeds the range, made by a function that an earlier source has bound. -/
theorem integers_in_range_square : ∃ first second m v m',
    parse "let f = fn(x) \x7b x * x \x7d" = .ok first ∧
    parse "f(9223372036854775807)" = .ok second ∧
    Machine.initial.store.Holds Words ∧
    Turn 0 (Hosted 0) Words Machine.initial m ∧
    Hosted 0 ⟨.run Store.globalScope second.statements, 3, m⟩ ∧
    runUpTo 3 0 Store.globalScope second.statements m = .ok v m' ∧ Words v := by
  obtain ⟨first, second, hfirst, hsecond, hplain, hplain', v, m', hrun⟩ : ∃ first second,
      parse "let f = fn(x) \x7b x * x \x7d" = .ok first ∧
      parse "f(9223372036854775807)" = .ok second ∧
      (∀ n ∈ first.statements, n.Everywhere Node.Plain) ∧
      (∀ n ∈ second.statements, n.Everywhere Node.Plain) ∧
      ∃ v m', runUpTo 3 0 Store.globalScope second.statements
        (leaves (runUpTo 3 0 Store.globalScope first.statements .initial)) = .ok v m' := by
    refine ⟨_, _, rfl, rfl, List.forall_mem_singleton.mpr ?_, List.forall_mem_singleton.mpr ?_,
      _, _, rfl⟩
    · refine .one trivial rfl (.one trivial rfl (.one trivial rfl (.one trivial rfl ?_)))
      exact .two trivial rfl (.leaf trivial rfl) (.leaf trivial rfl)
    · exact .one trivial rfl (.two trivial rfl (.leaf trivial rfl) (.leaf trivial rfl))
  have hat : plainInvariant.At ⟨.run Store.globalScope first.statements, 3, Machine.initial⟩ :=
    ⟨Store.holds_initial, hplain⟩
  have hends : plainInvariant.Kept _ (runUpTo 3 0 Store.globalScope first.statements .initial) :=
    hat.ends (plainInvariant_suits _)
  have hturn : Turn 0 (Hosted 0) Words Machine.initial _ :=
    .run Store.globalScope 3 Machine.initial hfirst (hosted_of_plain hat)
  have hhosted : Hosted 0 ⟨.run Store.globalScope second.statements, 3, _⟩ :=
    hosted_of_plain ⟨hends.store, hplain'⟩
  have hrange := (integers_in_range Store.holds_initial (.single hturn)).2
  exact ⟨first, second, _, v, m', hfirst, hsecond, Store.holds_initial, hturn, hhosted, hrun,
    (hrange _ second 3 Store.globalScope hsecond hhosted).2.2 v m' hrun⟩

end Eval

end Simian
