import Simian.Proofs.Evaluation.Frame
import Simian.Proofs.Evaluation.Tokenless

/-!
# What a call depends on

From a function and its arguments some scopes can be reached, and a call sees no others. On two
machines that agree in these scopes it does the same, whatever else they hold, up to which scopes
and functions it makes: those are other ones on the other machine. A call changes no scope that
was there, so a second call with the same arguments does the same as the first.
-/

namespace Simian

open Value
set_option autoImplicit false

namespace Store

/-- The scopes that can be reached from values: those that they capture, those that enclose these,
and those captured by what is bound there. -/
inductive Reaches (s : Store) (vs : List Value) : ScopeId → Prop where
  | captured {v : Value} {i : ScopeId} : v ∈ vs → v.Captures i → Reaches s vs i
  | outer {i j : ScopeId} : Reaches s vs i → j ∈ (s.scope i).outer → Reaches s vs j
  | bound {i j : ScopeId} {name : String} {v : Value} : Reaches s vs i →
      s.own? i name = some v → v.Captures j → Reaches s vs j

/-- The scopes that can be reached from the values are there in both stores, with the same
bindings and inside the same scopes. -/
structure AgreeFrom (vs : List Value) (s t : Store) : Prop where
  there {i : ScopeId} : s.Reaches vs i → i < s.scopes.size ∧ i < t.scopes.size
  outer {i : ScopeId} : s.Reaches vs i → (s.scope i).outer = (t.scope i).outer
  own {i : ScopeId} : s.Reaches vs i → ∀ name, s.own? i name = t.own? i name

end Store

/-- What was there is the same on both machines, as far as it can be reached from the values. What
was made since then stands for what was made as the same on the other machine. -/
def Machine.since (vs : List Value) (a b : Machine) : Likeness where
  tokens := id
  scope i j := (i = j ∧ a.store.Reaches vs i) ∨
    ∃ k, i = a.store.scopes.size + k ∧ j = b.store.scopes.size + k
  number k l := k = l ∨ ∃ n, k = a.functions + n ∧ l = b.functions + n

namespace Store

variable {vs : List Value} {a b : Machine}

theorem AgreeFrom.like (v : Value) (h : ∀ i, v.Captures i → a.store.Reaches vs i) :
    Like (a.since vs b) v v :=
  Like.refl (fun _ => Or.inl rfl) v fun i hi => Or.inl ⟨rfl, h i hi⟩

theorem eq_add_iff_of_lt {i m n k : Nat} (hm : i < m) (hn : i < n) : i = m + k ↔ i = n + k := by
  omega

theorem AgreeFrom.joined (h : AgreeFrom vs a.store b.store) :
    Joined (Machine.since vs a b) a.store b.store where
  unique := by
    rintro i i' j j' (⟨rfl, hi⟩ | ⟨k, rfl, rfl⟩) (⟨rfl, hi'⟩ | ⟨k', rfl, rfl⟩)
    · exact Iff.rfl
    · exact eq_add_iff_of_lt (h.there hi).1 (h.there hi).2
    · rw [eq_comm, eq_add_iff_of_lt (h.there hi').1 (h.there hi').2, eq_comm]
    · rw [Nat.add_left_cancel_iff, Nat.add_left_cancel_iff]
  later k := .inr ⟨k, rfl, rfl⟩
  own := by
    rintro i j (⟨rfl, hi⟩ | ⟨k, rfl, rfl⟩) name
    · rw [← h.own hi name]
      cases hv : a.store.own? i name with
      | none => exact .none
      | some v => exact .some (AgreeFrom.like v fun j hj => .bound hi hv hj)
    · rw [own?_of_le (Nat.le_add_right _ _), own?_of_le (Nat.le_add_right _ _)]
      exact .none
  outer := by
    rintro i j (⟨rfl, hi⟩ | ⟨k, rfl, rfl⟩)
    · rw [← h.outer hi]
      exact List.forall₂_same.mpr fun j hj => .inl ⟨rfl, .outer hi hj⟩
    · rw [scope_of_le (Nat.le_add_right _ _), scope_of_le (Nat.le_add_right _ _)]
      exact .nil

end Store

namespace Eval

/-- A call does the same on machines that agree in what can be reached from it. -/
theorem callUpTo_alongside (v w limit : Nat) {f : Value} {args : List Value} {a b : Machine}
    (h : Store.AgreeFrom (f :: args) a.store b.store) :
    Alongside (a.since (f :: args) b) v w a b (Like (a.since (f :: args) b))
      (callUpTo v limit f args a) (callUpTo w limit f args b) := by
  have hlike (x : Value) (hx : x ∈ f :: args) : Like (a.since (f :: args) b) x x :=
    Store.AgreeFrom.like x fun i hi => .captured hx hi
  have hargs : List.Forall₂ (Like (a.since (f :: args) b)) args args :=
    List.forall₂_same.mpr fun x hx => hlike x (List.mem_cons_of_mem f hx)
  exact callUpTo_lockstep limit f f args args (hlike f List.mem_cons_self) hargs a b
    (.refl h.joined fun k => .inr ⟨k, rfl, rfl⟩)

/-- What a call reaches is the same after a call. -/
theorem agreeFrom_leaves (verbosity limit : Nat) (f : Value) (args : List Value)
    {vs : List Value} {m : Machine} (h : ∀ i, m.store.Reaches vs i → i < m.store.scopes.size) :
    Store.AgreeFrom vs m.store (leaves (callUpTo verbosity limit f args m)).store := by
  have hframe := call_frame verbosity limit f args m
  exact ⟨fun hi => ⟨h _ hi, Nat.lt_of_lt_of_le (h _ hi) hframe.size_le⟩,
    fun hi => (hframe.outer _ (h _ hi)).symm,
    fun hi name => (hframe.free _ (h _ hi) name not_false).symm⟩

/-- A call gives the same and prints the same on all machines that agree in what can be reached
from the function and the arguments. A second call right after the first prints the same again and
gives a value that is shown in the same way. -/
theorem call_depends_on_reach (limit : Nat) (f : Value) (args : List Value) :
    (∀ (v w : Nat) (a b : Machine), Store.AgreeFrom (f :: args) a.store b.store →
      Alongside (a.since (f :: args) b) v w a b (Like (a.since (f :: args) b))
        (callUpTo v limit f args a) (callUpTo w limit f args b)) ∧
    ∀ (verbosity : Nat) (m : Machine),
      (∀ i, m.store.Reaches (f :: args) i → i < m.store.scopes.size) →
      ∃ text,
        (leaves (callUpTo verbosity limit f args m)).output = m.output ++ text ∧
        (leaves (callUpTo verbosity limit f args
          (leaves (callUpTo verbosity limit f args m)))).output = m.output ++ text ++ text ∧
        shown (callUpTo verbosity limit f args (leaves (callUpTo verbosity limit f args m))) =
          shown (callUpTo verbosity limit f args m) := by
  refine ⟨fun v w a b => callUpTo_alongside v w limit, fun verbosity m h => ?_⟩
  have hagain := callUpTo_alongside verbosity verbosity limit
    (agreeFrom_leaves verbosity limit f args h)
  obtain ⟨text, hfirst, hsecond⟩ := hagain.tied.output
  refine ⟨text, hfirst, ?_, hagain.shown_eq.symm⟩
  rw [hsecond, hfirst]

/-- A function that prints the `x` of the scope where it was made and gives a new function. The
other machine has a scope more, with an `x` of its own, and has made functions and printed. -/
theorem call_depends_on_reach_closure : ∃ (f : Value) (a b : Machine),
    f.inspect = "fn() \x7b puts(x); fn() \x7b \x7d \x7d" ∧
    a.store.scopes.size = 2 ∧ b.store.scopes.size = 3 ∧
    Alongside (a.since [f] b) 0 3 a b (Like (a.since [f] b))
      (callUpTo 0 1 f [] a) (callUpTo 3 1 f [] b) ∧
    ∃ text, (leaves (callUpTo 0 1 f [] a)).output = a.output ++ text ∧ text = "5\n" ∧
      (leaves (callUpTo 0 1 f [] (leaves (callUpTo 0 1 f [] a)))).output = a.output ++ text ++ text ∧
      shown (callUpTo 0 1 f [] (leaves (callUpTo 0 1 f [] a))) = shown (callUpTo 0 1 f [] a) := by
  let t : Token := ⟨.ident, "x", ⟨1, 1⟩⟩
  let code : Node := .block t
    [.expressionStatement t (.call t (.ident ⟨t, "puts"⟩) [.ident ⟨t, "x"⟩]),
      .expressionStatement t (.function t [] (.block t []))]
  let f : Value := .function 0 [] code 1
  let made : Scope := ⟨[("x", .integer 5)], [0]⟩
  let a : Machine := ⟨⟨#[⟨[], []⟩, made]⟩, 1, "", #[]⟩
  let b : Machine := ⟨⟨#[⟨[], []⟩, made, ⟨[("x", .integer 7)], [0]⟩]⟩, 4, "7\n", #[]⟩
  have hreach : ∀ i, a.store.Reaches [f] i → i = 0 ∨ i = 1 := by
    intro i hi
    induction hi with
    | captured hv hc =>
      rw [List.mem_singleton.mp hv] at hc
      change Value.Captures _ (.function 0 [] code 1) at hc
      cases hc
      exact .inr rfl
    | outer _ hj ih =>
      rcases ih with rfl | rfl
      · exact absurd hj List.not_mem_nil
      · exact .inl (List.mem_singleton.mp hj)
    | @bound i j name v _ hv hc ih =>
      rcases ih with rfl | rfl
      · cases hv
      · have hmem := Assoc.mem_of_lookup hv
        cases List.mem_singleton.mp hmem
        cases hc
  have hthere : ∀ i, a.store.Reaches [f] i → i < a.store.scopes.size := by
    intro i hi
    rcases hreach i hi with rfl | rfl <;> decide
  have hagree : Store.AgreeFrom [f] a.store b.store := by
    refine ⟨fun hi => ⟨hthere _ hi, ?_⟩, fun hi => ?_, fun hi name => ?_⟩ <;>
      rcases hreach _ hi with rfl | rfl
    · decide
    · decide
    all_goals rfl
  refine ⟨f, a, b, by decide +kernel, rfl, rfl, (call_depends_on_reach 1 f []).1 0 3 a b hagree, ?_⟩
  obtain ⟨text, hfirst, hrest⟩ := (call_depends_on_reach 1 f []).2 0 a hthere
  have hprinted : (leaves (callUpTo 0 1 f [] a)).output = "5\n" := by decide +kernel
  refine ⟨text, hfirst, ?_, hrest⟩
  rw [hprinted] at hfirst
  exact (String.empty_append.symm.trans hfirst.symm)

end Eval

end Simian
