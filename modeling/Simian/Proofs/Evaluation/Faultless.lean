import Simian.Proofs.Evaluation.Contents
import Simian.Proofs.Parser.Built
import Mathlib.Data.List.Basic

/-!
# Parsed programs run without faults

What rules build has a meaning, and the functions that it makes have blocks as their bodies.
However often an interpreter runs such programs, every run ends in a value. On the way no element
is asked for that is not there: an index lies within its array or gives `null`, a built-in function
is called with as many arguments as it takes, and every parameter of a function is bound where its
body is run.
-/

namespace Simian

open Machine
set_option autoImplicit false

namespace Node

theorem Built.part {n c : Node} (h : n.Built) (hc : c ∈ n.parts) : c.Built := by
  cases h with
  | letStatement he | expressionStatement he | prefixOp he =>
    exact List.mem_singleton.mp hc ▸ he
  | returnStatement he => exact he c (Option.mem_toList.mp hc)
  | block hs => exact hs c hc
  | array he => exact he c hc
  | infixOp hl hr =>
    rcases List.mem_cons.mp hc with rfl | hc
    · exact hl
    · exact List.mem_singleton.mp hc ▸ hr
  | index hl hr =>
    rcases List.mem_cons.mp hc with rfl | hc
    · exact hl
    · exact List.mem_singleton.mp hc ▸ hr
  | conditional hcond ha hb =>
    rcases List.mem_cons.mp hc with rfl | hc
    · exact hcond
    · rcases List.mem_cons.mp hc with rfl | hc
      · exact ha
      · exact hb c (Option.mem_toList.mp hc)
  | call hf he =>
    rcases List.mem_cons.mp hc with rfl | hc
    · exact hf
    · exact he c hc
  | ident | integer | string | boolean | function => exact absurd hc List.not_mem_nil

/-- The body of a function that a rule built. -/
structure IsBody (code : Node) : Prop where
  built : code.Built
  statements : code.statements?.isSome

theorem Built.isBody {t : Token} {ps : List Ident} {code : Node}
    (h : (Node.function t ps code).Built) : code.IsBody := by
  cases h with
  | function hc => exact ⟨hc, rfl⟩

end Node

/-! ## Elements by their places -/

/-- The element at a place that is within the array; `null` beyond the ends. Nothing if a place
within the array has no element. -/
def Value.elementAt? (es : List Value) (i : Int) : Option Value :=
  if i < 0 ∨ es.length ≤ i then some .null else es[i.toNat]?

theorem Value.elementAt?_eq (es : List Value) (i : Int) :
    elementAt? es i = some (elementAt es i) := by
  unfold elementAt? elementAt
  by_cases hneg : i < 0
  · rw [if_pos (.inl hneg), if_pos hneg]
  · rw [if_neg hneg, List.getD_eq_getElem?_getD]
    by_cases hlen : es.length ≤ i
    · have hnone : es[i.toNat]? = none := List.getElem?_eq_none (by omega)
      rw [if_pos (.inr hlen), hnone]
      rfl
    · have hsome : es[i.toNat]? = some es[i.toNat] := List.getElem?_eq_getElem (by omega)
      rw [if_neg (not_or.mpr ⟨hneg, hlen⟩), hsome]
      rfl

namespace Builtin

/-- Applies `f` to the elements of an array. -/
def onArray? (b : Builtin) (f : List Value → Option Value) : Value → Option Value
  | .array es => f es
  | v => some (.error (.notAnArray b.name v.type))

/-- What a built-in function gives when it takes its arguments and the elements of an array by
their places; nothing if it asks for one that is not there. -/
def result? : Builtin → List Value → Option Value
  | len, args => args[0]?.map length
  | first, args => do
    onArray? first (fun es => if es.isEmpty then some .null else es[0]?) (← args[0]?)
  | last, args => do
    onArray? last (fun es => if es.isEmpty then some .null else es[es.length - 1]?) (← args[0]?)
  | rest, args => do
    onArray? rest (fun es => some (if es.isEmpty then .null else .array (es.drop 1))) (← args[0]?)
  | push, [v, item] => onArray? push (fun es => some (.array (es ++ [item]))) v
  | push, _ => none
  | puts, _ => some .null

theorem onArray?_eq (b : Builtin) {f : List Value → Option Value} {g : List Value → Value}
    (h : ∀ es, f es = some (g es)) (v : Value) : onArray? b f v = some (onArray b g v) := by
  cases v <;> first | exact h _ | rfl

/-- Arguments of the right number are all that a built-in function asks for. -/
theorem result?_eq (b : Builtin) {args : List Value} (h : b.accepts args.length = true) :
    b.result? args = some (b.result args) := by
  have hone {n : Nat} (hb : b.arity? = some n) : args.length = n := by
    simpa [accepts, hb] using h
  cases b with
  | puts => rfl
  | len =>
    obtain ⟨v, rfl⟩ := List.length_eq_one_iff.mp (hone rfl)
    rfl
  | first =>
    obtain ⟨v, rfl⟩ := List.length_eq_one_iff.mp (hone rfl)
    refine onArray?_eq first (fun es => ?_) v
    cases es <;> rfl
  | last =>
    obtain ⟨v, rfl⟩ := List.length_eq_one_iff.mp (hone rfl)
    refine onArray?_eq last (fun es => ?_) v
    cases es with
    | nil => rfl
    | cons e es => simp [List.getLast?_eq_getElem?]
  | rest =>
    obtain ⟨v, rfl⟩ := List.length_eq_one_iff.mp (hone rfl)
    refine onArray?_eq rest (fun es => ?_) v
    cases es <;> rfl
  | push =>
    obtain ⟨v, item, rfl⟩ := List.length_eq_two.mp (hone rfl)
    exact onArray?_eq push (fun es => rfl) v

end Builtin

namespace Machine

/-- What is bound in a scope stays bound there, and so is every name that is given. -/
theorem own?_bindAll {id : ScopeId} {ps : List (String × Value)} {m m' : Machine}
    (h : bindAll id ps m = .ok () m') (hid : id < m.store.scopes.size) {name : String}
    (hname : (m.store.own? id name).isSome ∨ name ∈ ps.map Prod.fst) :
    (m'.store.own? id name).isSome := by
  induction ps generalizing m with
  | nil =>
    cases h
    exact hname.resolve_right List.not_mem_nil
  | cons p ps ih =>
    have hset := Store.own?_set m.store id id p.1 name p.2
    apply ih h
    · exact (Store.size_set m.store id p.1 p.2).symm ▸ hid
    · by_cases heq : name = p.1
      · exact .inl (by rw [hset, if_pos ⟨rfl, heq, hid⟩]; rfl)
      · rw [hset, if_neg fun hc => heq hc.2.1]
        refine hname.imp_right fun hmem => ?_
        exact (List.mem_cons.mp hmem).resolve_left heq

end Machine

namespace Eval

open Value

/-- Integers of any size, and functions whose bodies rules have built. -/
def builtContents : Contents where
  integer _ := True
  body := Node.IsBody
  node := Node.Built
  fault f := f = .tooDeep
  wrap _ := trivial
  part h hc := h.part hc
  literal _ := trivial
  closure h := h.isBody
  statements h hss _ hn := h.built.part (Node.mem_parts_of_statements? hss hn)
  unexpected h := nomatch h
  noStatements h hc := absurd h.statements (by simp [hc])
  tooDeep := rfl

/-- Values whose functions have bodies that rules have built. -/
abbrev FromSource : Value → Prop := builtContents.value

/-- Nothing is asked for at a point that is not there. -/
structure Provided (verbosity : Nat) (p : Point) : Prop where
  /-- Evaluation has a case for the node. -/
  meaning : ∀ id tree, p.task ≠ .node id (.datum tree)
  /-- A node can only be cut short. -/
  fault : ∀ id n f m, p.task = .node id n →
    node verbosity (callUpTo verbosity p.limit) id n p.machine = .error f m → f = .tooDeep
  arguments : ∀ b args, p.task = .call (.builtin b) args → b.accepts args.length = true →
    b.result? args = some (b.result args)
  body : ∀ i ps code id args, p.task = .call (.function i ps code id) args →
    code.statements?.isSome
  parameters : ∀ i ps code id args inner last ss k m, p.task = .call (.function i ps code id) args →
    Begins verbosity p ⟨.statements inner last ss, k, m⟩ →
    ∀ name ∈ ps, (m.store.own? inner name).isSome

variable {verbosity : Nat}

theorem own?_of_body {i : Nat} {ps : List String} {code : Node} {id inner : ScopeId}
    {args : List Value} {last : Value} {ss : List Node} {k l : Nat} {m m' : Machine}
    (h : Begins verbosity ⟨.call (.function i ps code id) args, k, m⟩
      ⟨.statements inner last ss, l, m'⟩) {name : String} (hname : name ∈ ps) :
    (m'.store.own? inner name).isSome := by
  cases h with
  | body hlen _ hscope hbind _ =>
    cases hscope
    apply own?_bindAll hbind (by simp)
    rw [List.map_fst_zip hlen.ge]
    exact .inr hname

theorem builtContents_suits (p : Point) : builtContents.invariant.Suits verbosity p :=
  builtContents.suits fun _ _ _ _ _ _ _ _ => trivial

theorem provided_of_at {p : Point} (h : builtContents.invariant.At p) : Provided verbosity p := by
  obtain ⟨task, k, m⟩ := p
  refine ⟨?_, ?_, ?_, ?_, ?_⟩
  · rintro id tree rfl
    have hn : (Node.datum tree).Built := h.task
    cases hn
  · rintro id n f m' rfl hf
    have hends : builtContents.invariant.Kept _ (node verbosity (callUpTo verbosity k) id n m) :=
      h.ends (builtContents_suits _)
    rw [hf] at hends
    cases hends with
    | error _ hfault => exact hfault
  · rintro b args - hb
    exact b.result?_eq hb
  · rintro i ps code id args rfl
    exact (Every.code h.task.1).statements
  · rintro i ps code id args inner last ss l m' rfl hbegins name hname
    exact own?_of_body hbegins hname

theorem settleDepth_ne_tooDeep (p : EvalM Value) (m m' : Machine) :
    settleDepth p m ≠ .error .tooDeep m' := by
  unfold settleDepth
  split
  · exact fun h => nomatch h
  · next hne => exact hne m'

/-- Calls nested too deep give an error value, so they are no fault of a run. -/
theorem runUpTo_ne_tooDeep (limit : Nat) (id : ScopeId) (program : List Node) (m m' : Machine) :
    runUpTo limit verbosity id program m ≠ .error .tooDeep m' := by
  intro h
  unfold runUpTo at h
  rw [bind_of_ok (note_eq _ _ _ _)] at h
  generalize hm : ({ m with trace := _ } : Machine) = m₁ at h
  cases hs : settleDepth (do
      return (← statements verbosity (callUpTo verbosity limit) id .null program).unwrapped) m₁ with
  | ok v n =>
    rw [bind_of_ok hs, bind_of_ok (note_eq _ _ _ _)] at h
    cases h
  | error f n =>
    rw [bind_of_error hs] at h
    cases h
    exact settleDepth_ne_tooDeep _ _ _ hs

theorem built_of_source (source : String) (parsed : Parsed) (hp : parse source = .ok parsed) :
    ∀ n ∈ parsed.statements, builtContents.node n := built_of_parse hp

theorem exists_runUpTo_ok {m : Machine} (hm : m.store.Holds FromSource) {source : String}
    {parsed : Parsed} (hp : parse source = .ok parsed) (limit : Nat) (id : ScopeId) :
    ∃ v m', runUpTo limit verbosity id parsed.statements m = .ok v m' := by
  have hends : builtContents.invariant.Kept _ (runUpTo limit verbosity id parsed.statements m) :=
    (Contents.at_run built_of_source hp id limit hm).ends (builtContents_suits _)
  generalize hr : runUpTo limit verbosity id parsed.statements m = r at hends
  cases hends with
  | @ok v m' => exact ⟨v, m', rfl⟩
  | error _ hfault =>
    subst hfault
    exact absurd hr (runUpTo_ne_tooDeep limit id parsed.statements m _)

end Eval

end Simian
