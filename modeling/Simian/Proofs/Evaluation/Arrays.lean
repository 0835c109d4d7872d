import Mathlib.Data.List.GetD
import Simian.Eval
import Simian.Proofs.Steps

/-!
# Arrays as lists

Built-in functions and the index operator treat an array as a list. `push` adds at the end, `first`,
`last` and `rest` take apart, `len` counts, and an index counts from zero and gives `null` where no
element is. Calls of them leave nothing behind but notes, so the laws are about what is computed on
any machine. A loop that takes an array apart from the front and pushes what it gets onto an empty
one makes the same array again.
-/

namespace Simian

open Machine
set_option autoImplicit false

namespace Eval

/-- The action gives `a` on every machine and leaves nothing behind but notes. -/
def Computes {α : Type} (p : EvalM α) (a : α) : Prop :=
  ∀ m, ∃ notes : Array Note, p m = .ok a { m with trace := m.trace ++ notes }

/-- Both actions compute a value, the same one. -/
def ComputeSame (p q : EvalM Value) : Prop := ∃ v, Computes p v ∧ Computes q v

/-- The loop that pushes the first element of `source` onto `target` and goes on with the rest of
`source`, until that is empty, ends with `whole`. -/
inductive Refills (call : Builtin → List Value → EvalM Value) : Value → Value → Value → Prop where
  | done {source target : Value} : Computes (call .len [source]) (.integer 0) →
      Refills call source target target
  | round {source target e longer shorter whole : Value} {n : Int} :
      Computes (call .len [source]) (.integer n) → n ≠ 0 →
      Computes (call .first [source]) e → Computes (call .push [target, e]) longer →
      Computes (call .rest [source]) shorter → Refills call shorter longer whole →
      Refills call source target whole

/-- The laws of lists for the array of the elements `es` and a value `x`, with `call` to call a
built-in function and `index` to select. -/
structure ListLaws (call : Builtin → List Value → EvalM Value)
    (index : Value → Value → EvalM Value) (es : List Value) (x : Value) : Prop where
  length : Computes (call .len [.array es]) (.integer es.length)
  within (i : Nat) (h : i < es.length) : Computes (index (.array es) (.integer i)) es[i]
  outside (i : Int) : i < 0 ∨ es.length ≤ i → Computes (index (.array es) (.integer i)) .null
  length_push : Computes (do call .len [← call .push [.array es, x]]) (.integer (es.length + 1))
  last_push : Computes (do call .last [← call .push [.array es, x]]) x
  index_push_length :
    Computes (do index (← call .push [.array es, x]) (.integer es.length)) x
  index_push_ne (i : Int) : i ≠ es.length →
    ComputeSame (do index (← call .push [.array es, x]) (.integer i))
      (index (.array es) (.integer i))
  first : 0 < es.length →
    ComputeSame (call .first [.array es]) (index (.array es) (.integer 0))
  last : 0 < es.length →
    ComputeSame (call .last [.array es]) (index (.array es) (.integer (es.length - 1)))
  length_rest : 0 < es.length →
    Computes (do call .len [← call .rest [.array es]]) (.integer (es.length - 1))
  index_rest (i : Int) : 0 < es.length → 0 ≤ i →
    ComputeSame (do index (← call .rest [.array es]) (.integer i))
      (index (.array es) (.integer (i + 1)))
  empty (b : Builtin) : es = [] → b ∈ [Builtin.first, .last, .rest] →
    Computes (call b [.array es]) .null
  refilled (whole : Value) : Refills call (.array es) (.array []) whole ↔ whole = .array es

end Eval

/-! ## Elements by their places -/

namespace Value

variable (es : List Value) (x : Value)

theorem elementAt_of_lt {i : Nat} (h : i < es.length) : elementAt es i = es[i] := by
  have hi : ¬ (i : Int) < 0 := by omega
  rw [elementAt, if_neg hi, Int.toNat_natCast, List.getD_eq_getElem _ _ h]

theorem elementAt_outside {i : Int} (h : i < 0 ∨ es.length ≤ i) : elementAt es i = null := by
  rw [elementAt]
  by_cases hi : i < 0
  · rw [if_pos hi]
  · have hle : es.length ≤ i.toNat := by omega
    rw [if_neg hi, List.getD_eq_default _ _ hle]

theorem elementAt_append_length : elementAt (es ++ [x]) es.length = x := by
  have h : es.length < (es ++ [x]).length := by simp
  rw [elementAt_of_lt _ h, List.getElem_concat_length rfl]

theorem elementAt_append_ne {i : Int} (h : i ≠ es.length) :
    elementAt (es ++ [x]) i = elementAt es i := by
  by_cases hout : i < 0 ∨ es.length ≤ i
  · -- a place beyond the end is not the one that was added, so it is beyond that, too
    have hbeyond : i < 0 ∨ (es ++ [x]).length ≤ i := by
      rw [List.length_append, List.length_singleton]
      omega
    rw [elementAt_outside es hout, elementAt_outside (es ++ [x]) hbeyond]
  · have hi : ¬ i < 0 := fun hneg => hout (.inl hneg)
    have hlt : i.toNat < es.length := by omega
    rw [elementAt, elementAt, if_neg hi, if_neg hi]
    exact List.getD_append _ _ _ _ hlt

theorem elementAt_tail {i : Int} (h : 0 ≤ i) : elementAt es.tail i = elementAt es (i + 1) := by
  have hi : ¬ i < 0 := Int.not_lt.mpr h
  have hnext : ¬ i + 1 < 0 := by omega
  have hsucc : (i + 1).toNat = i.toNat + 1 := by omega
  rw [elementAt, elementAt, if_neg hi, if_neg hnext, hsucc]
  cases es with
  | nil => rfl
  | cons e es => rw [List.tail_cons, List.getD_cons_succ]

end Value

namespace Eval

/-! ## What is computed -/

section

variable {α β : Type} {p : EvalM α} {f : α → EvalM β} {a b : α} {c : β}

theorem Computes.andThen (hp : Computes p a) (hf : Computes (f a) c) : Computes (p >>= f) c := by
  intro m
  obtain ⟨notes, hm⟩ := hp m
  obtain ⟨more, hn⟩ := hf { m with trace := m.trace ++ notes }
  refine ⟨notes ++ more, ?_⟩
  rw [bind_of_ok hm, hn, Array.append_assoc]

theorem Computes.unique (ha : Computes p a) (hb : Computes p b) : a = b := by
  obtain ⟨notes, hm⟩ := ha .initial
  obtain ⟨more, hn⟩ := hb .initial
  exact (EStateM.Result.ok.inj (hm.symm.trans hn)).1

theorem computes_pure (a : α) : Computes (pure a) a := by
  intro m
  exact ⟨#[], by rw [Array.append_empty]; rfl⟩

theorem computes_note (verbosity level : Nat) (text : Unit → String) :
    Computes (note verbosity level text) () := by
  intro m
  unfold note
  split
  · exact ⟨#[⟨level, text ()⟩], by rw [Array.push_eq_append]⟩
  · exact ⟨#[], by rw [Array.append_empty]⟩

theorem computes_print : Computes (print "") () := by
  intro m
  exact ⟨#[], by rw [print, String.append_empty, Array.append_empty]⟩

end

section

variable {verbosity limit : Nat}

theorem computes_index {es : List Value} {i : Int} {v : Value} (h : Value.elementAt es i = v) :
    Computes (index verbosity (.array es) (.integer i)) v := by
  subst h
  exact (computes_note verbosity 3 _).andThen (computes_pure _)

/-- Only `puts` prints. -/
theorem printed_of_ne {b : Builtin} (h : b ≠ .puts) (args : List Value) :
    b.printed args = "" := by
  cases b with
  | puts => exact absurd rfl h
  | _ => rfl

/-- A call of a built-in function. -/
abbrev builtinCall (verbosity limit : Nat) (b : Builtin) (args : List Value) : EvalM Value :=
  callUpTo verbosity limit (.builtin b) args

theorem computes_call {b : Builtin} {args : List Value} {v : Value} (hb : b ≠ .puts)
    (hargs : b.accepts args.length = true) (hv : b.result args = v) :
    Computes (builtinCall verbosity limit b args) v := by
  have happly (run : ScopeId → Node → EvalM Value) :
      Computes (apply verbosity run (.builtin b) args) v := by
    rw [apply, if_pos hargs, printed_of_ne hb, hv]
    apply (computes_note verbosity 2 _).andThen
    exact computes_print.andThen (computes_pure v)
  cases limit with
  | zero => exact happly _
  | succ n => exact happly _

theorem computes_len {es : List Value} {n : Int} (h : es.length = n) :
    Computes (builtinCall verbosity limit .len [.array es]) (.integer n) :=
  computes_call (by decide) rfl (congrArg Value.integer h)

theorem computes_push (es : List Value) (x : Value) :
    Computes (builtinCall verbosity limit .push [.array es, x]) (.array (es ++ [x])) :=
  computes_call (by decide) rfl rfl

theorem computes_first (e : Value) (es : List Value) :
    Computes (builtinCall verbosity limit .first [.array (e :: es)]) e :=
  computes_call (by decide) rfl rfl

theorem computes_last (es : List Value) (e : Value) :
    Computes (builtinCall verbosity limit .last [.array (es ++ [e])]) e :=
  computes_call (by decide) rfl (by simp [Builtin.result, Builtin.onArray])

theorem computes_rest (e : Value) (es : List Value) :
    Computes (builtinCall verbosity limit .rest [.array (e :: es)]) (.array es) :=
  computes_call (by decide) rfl rfl

/-! ## Rounds of the loop -/

theorem refills_nil_iff {target whole : Value} :
    Refills (builtinCall verbosity limit) (.array []) target whole ↔ whole = target := by
  constructor
  · intro h
    cases h with
    | done => rfl
    | round hlen hne =>
      have hn := hlen.unique (computes_len rfl)
      exact absurd (Value.integer.inj hn) hne
  · rintro rfl
    exact .done (computes_len rfl)

/-- A round moves one element. -/
theorem refills_cons_iff {e : Value} {es ds : List Value} {whole : Value} :
    Refills (builtinCall verbosity limit) (.array (e :: es)) (.array ds) whole ↔
      Refills (builtinCall verbosity limit) (.array es) (.array (ds ++ [e])) whole := by
  constructor
  · intro h
    cases h with
    | done hlen =>
      have hn := Value.integer.inj (hlen.unique (computes_len rfl))
      rw [List.length_cons] at hn
      omega
    | round _ _ hfirst hpush hrest h =>
      obtain rfl := hfirst.unique (computes_first e es)
      obtain rfl := hpush.unique (computes_push ds _)
      obtain rfl := hrest.unique (computes_rest _ es)
      exact h
  · intro h
    have hne : ((e :: es).length : Int) ≠ 0 := by
      rw [List.length_cons]
      omega
    exact .round (computes_len rfl) hne (computes_first e es) (computes_push ds e)
      (computes_rest e es) h

/-- What was moved and what is left make the same list at every round. -/
theorem refills_iff {es ds : List Value} {whole : Value} :
    Refills (builtinCall verbosity limit) (.array es) (.array ds) whole ↔
      whole = .array (ds ++ es) := by
  induction es generalizing ds with
  | nil => rw [refills_nil_iff, List.append_nil]
  | cons e es ih => rw [refills_cons_iff, ih, List.append_assoc, List.singleton_append]

end

/-! ## The laws -/

/-- Arrays are lists for the built-in functions and the index operator, with any elements and at any
place. -/
theorem array_listLaws (verbosity limit : Nat) (es : List Value) (x : Value) :
    ListLaws (builtinCall verbosity limit) (index verbosity) es x where
  length := computes_len rfl
  within _ h := computes_index (Value.elementAt_of_lt es h)
  outside _ h := computes_index (Value.elementAt_outside es h)
  length_push := by
    have hlen : ((es ++ [x]).length : Int) = es.length + 1 := by
      rw [List.length_append, List.length_singleton, Int.natCast_add, Int.natCast_one]
    exact (computes_push es x).andThen (computes_len hlen)
  last_push := (computes_push es x).andThen (computes_last es x)
  index_push_length :=
    (computes_push es x).andThen (computes_index (Value.elementAt_append_length es x))
  index_push_ne i h := by
    have hindex := Value.elementAt_append_ne es x h
    exact ⟨_, (computes_push es x).andThen (computes_index hindex), computes_index rfl⟩
  first h := by
    obtain ⟨e, es, rfl⟩ := List.exists_cons_of_length_pos h
    exact ⟨e, computes_first e es, computes_index rfl⟩
  last h := by
    have hne : es ≠ [] := List.ne_nil_of_length_pos h
    obtain ⟨front, e, rfl⟩ : ∃ front e, es = front ++ [e] :=
      ⟨_, _, (List.dropLast_concat_getLast hne).symm⟩
    have hend : ((front ++ [e]).length : Int) - 1 = front.length := by
      rw [List.length_append, List.length_singleton]
      omega
    rw [hend]
    exact ⟨e, computes_last front e, computes_index (Value.elementAt_append_length front e)⟩
  length_rest h := by
    obtain ⟨e, es, rfl⟩ := List.exists_cons_of_length_pos h
    have hlen : (es.length : Int) = (e :: es).length - 1 := by
      rw [List.length_cons]
      omega
    exact (computes_rest e es).andThen (computes_len hlen)
  index_rest i h hi := by
    obtain ⟨e, es, rfl⟩ := List.exists_cons_of_length_pos h
    have hindex := (Value.elementAt_tail (e :: es) hi).symm
    exact ⟨_, (computes_rest e es).andThen (computes_index rfl), computes_index hindex⟩
  empty b hes hb := by
    subst hes
    simp only [List.mem_cons, List.not_mem_nil, or_false] at hb
    rcases hb with rfl | rfl | rfl
    · exact computes_call (by decide) rfl rfl
    · exact computes_call (by decide) rfl rfl
    · exact computes_call (by decide) rfl rfl
  refilled whole := refills_iff

/-- A text and a number: no place is counted from the end. -/
theorem array_listLaws_pair :
    let es : List Value := [.string "a", .integer 7]
    0 < es.length ∧
    ComputeSame (do index 3 (← builtinCall 3 0 .rest [.array es]) (.integer 0))
      (index 3 (.array es) (.integer 1)) ∧
    ComputeSame (do index 3 (← builtinCall 3 0 .push [.array es, .null]) (.integer (-1)))
      (index 3 (.array es) (.integer (-1))) ∧
    Computes (index 3 (.array es) (.integer (-1))) .null ∧
    Refills (builtinCall 3 0) (.array es) (.array []) (.array es) := by
  intro es
  have h := array_listLaws 3 0 es .null
  exact ⟨by decide, h.index_rest 0 (by decide) (by decide), h.index_push_ne (-1) (by decide),
    h.outside (-1) (.inl (by decide)), (h.refilled _).mpr rfl⟩

end Eval

end Simian
