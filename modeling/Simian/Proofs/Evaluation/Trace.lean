import Simian.Proofs.Evaluation.Depth
import Simian.Proofs.Evaluation.InParts

/-!
# The trace of a run

Which notes a run makes is all that its verbosity decides. Evaluation only adds to the trace, and
what it adds has a level of at least one; two runs that differ in their verbosity go in lockstep,
so one list of notes accounts for the traces of both.
-/

namespace Simian

open Machine
set_option autoImplicit false

namespace Eval

/-- A relation of machines that every single step of evaluation at a verbosity goes along. -/
structure Progress (verbosity : Nat) where
  along : Machine → Machine → Prop
  refl (m : Machine) : along m m
  trans {l m n : Machine} : along l m → along m n → along l n
  noted (m : Machine) (text : String) {level : Nat} : 1 ≤ level → level ≤ verbosity →
    along m { m with trace := m.trace.push ⟨level, text⟩ }
  printed (m : Machine) (text : String) : along m { m with output := m.output ++ text }
  bound (m : Machine) (id : ScopeId) (name : String) (v : Value) :
    along m { m with store := m.store.set id name v }
  entered (m : Machine) (id : ScopeId) :
    along m { m with store := m.store.addScope (m.store.chain id) }
  made (m : Machine) : along m { m with functions := m.functions + 1 }

namespace Progress

variable {verbosity : Nat} {P : Progress verbosity} {α β : Type}

/-- The machine that the action leaves behind is further along than the one it started from. -/
def Advances (P : Progress verbosity) (p : EvalM α) : Prop := ∀ m, P.along m (leaves (p m))

/-! ## Sequences and single steps -/

theorem Advances.andThen {p : EvalM α} {f : α → EvalM β} (h : P.Advances p)
    (hf : ∀ a, P.Advances (f a)) : P.Advances (p >>= f) := by
  intro m
  have hm := h m
  cases hp : p m with
  | ok a n =>
    rw [hp] at hm
    rw [bind_of_ok hp]
    exact P.trans hm (hf a n)
  | error e n =>
    rw [hp] at hm
    rw [bind_of_error hp]
    exact hm

theorem Advances.unless {p : EvalM Value} {k : Value → EvalM Value} (h : P.Advances p)
    (hk : ∀ v, P.Advances (k v)) : P.Advances (p >>= fun v => unlessSignal v (k v)) := by
  apply h.andThen
  intro v
  unfold unlessSignal
  split
  · exact P.refl
  · exact hk v

theorem advances_pure (a : α) : P.Advances (pure a) := P.refl

theorem advances_throw (f : EvalFault) : P.Advances (throw f : EvalM α) := P.refl

theorem advances_note {level : Nat} (h : 1 ≤ level) (text : Unit → String) :
    P.Advances (note verbosity level text) := by
  intro m
  unfold note
  split
  · next hlevel => exact P.noted m _ h hlevel
  · exact P.refl m

theorem advances_print (text : String) : P.Advances (print text) := fun m => P.printed m text

theorem advances_bind (id : ScopeId) (name : String) (v : Value) : P.Advances (bind id name v) :=
  fun m => P.bound m id name v

theorem advances_bindAll (id : ScopeId) (ps : List (String × Value)) :
    P.Advances (bindAll id ps) := by
  induction ps with
  | nil => exact advances_pure ()
  | cons p ps ih => exact (advances_bind id p.1 p.2).andThen fun _ => ih

theorem advances_newScope (id : ScopeId) : P.Advances (newScope id) := fun m => P.entered m id

theorem advances_identifier (scope : ScopeId) (name : String) :
    P.Advances (identifier scope name) := by
  have hlookup : P.Advances (lookup scope name) := P.refl
  apply hlookup.andThen
  intro o
  cases o with
  | some v => exact advances_pure v
  | none => cases Builtin.ofName? name <;> exact advances_pure _

theorem advances_index (c i : Value) : P.Advances (index verbosity c i) := by
  unfold index
  split
  · exact advances_pure _
  · exact (advances_note (by decide) _).andThen fun _ => advances_pure _

/-! ## Constructs -/

def AdvancesCalls (P : Progress verbosity) (call : Caller) : Prop :=
  ∀ f args, P.Advances (call f args)

section
variable {call : Caller}

mutual

theorem node_advances (hcall : P.AdvancesCalls call) (scope : ScopeId) :
    ∀ n : Node, P.Advances (node verbosity call scope n)
  | .program ss => by
    rw [node]
    exact (statements_advances hcall scope .null ss).andThen fun _ => advances_pure _
  | .letStatement _ name value => by
    rw [node]
    apply (node_advances hcall scope value).unless
    intro v
    apply (advances_bind scope name.name v).andThen
    intro _
    exact (advances_note (by decide) _).andThen fun _ => advances_pure _
  | .returnStatement _ none => by
    rw [node]
    exact advances_pure _
  | .returnStatement _ (some value) => by
    rw [node]
    exact (node_advances hcall scope value).unless fun _ => advances_pure _
  | .expressionStatement _ e => by
    rw [node]
    exact node_advances hcall scope e
  | .block _ ss => by
    rw [node]
    exact statements_advances hcall scope .null ss
  | .ident name => by
    rw [node]
    exact advances_identifier scope name.name
  | .integer _ n => by
    rw [node]
    exact advances_pure _
  | .string _ s => by
    rw [node]
    exact advances_pure _
  | .boolean _ b => by
    rw [node]
    exact advances_pure _
  | .array _ es => by
    rw [node]
    apply (expressions_advances hcall scope es).andThen
    intro r
    cases r <;> exact advances_pure _
  | .prefixOp _ op e => by
    rw [node]
    exact (node_advances hcall scope e).unless fun _ => advances_pure _
  | .infixOp _ op left right => by
    rw [node]
    apply (node_advances hcall scope left).unless
    intro l
    exact (node_advances hcall scope right).unless fun _ => advances_pure _
  | .conditional _ condition consequence none => by
    rw [node]
    apply (node_advances hcall scope condition).unless
    intro c
    apply (advances_note (by decide) _).andThen
    intro _
    split
    · exact node_advances hcall scope consequence
    · exact advances_pure _
  | .conditional _ condition consequence (some alternative) => by
    rw [node]
    apply (node_advances hcall scope condition).unless
    intro c
    apply (advances_note (by decide) _).andThen
    intro _
    split
    · exact node_advances hcall scope consequence
    · exact node_advances hcall scope alternative
  | .function _ parameters body => by
    rw [node]
    exact P.made
  | .call _ callee arguments => by
    rw [node]
    apply (node_advances hcall scope callee).unless
    intro f
    apply (expressions_advances hcall scope arguments).andThen
    intro r
    cases r with
    | error signal => exact advances_pure signal
    | ok args => exact hcall f args
  | .index _ collection position => by
    rw [node]
    apply (node_advances hcall scope collection).unless
    intro c
    exact (node_advances hcall scope position).unless fun i => advances_index c i
  | .datum tree => by
    rw [node]
    exact advances_throw _

theorem statements_advances (hcall : P.AdvancesCalls call) (scope : ScopeId) (last : Value) :
    ∀ ss : List Node, P.Advances (statements verbosity call scope last ss)
  | [] => by
    rw [statements]
    exact advances_pure last
  | s :: ss => by
    rw [statements]
    exact (node_advances hcall scope s).unless fun v => statements_advances hcall scope v ss

theorem expressions_advances (hcall : P.AdvancesCalls call) (scope : ScopeId) :
    ∀ es : List Node, P.Advances (expressions verbosity call scope es)
  | [] => by
    rw [expressions]
    exact advances_pure _
  | e :: es => by
    rw [expressions]
    apply (node_advances hcall scope e).andThen
    intro v
    split
    · exact advances_pure _
    · apply (expressions_advances hcall scope es).andThen
      intro r
      cases r <;> exact advances_pure _

end

theorem body_advances (hcall : P.AdvancesCalls call) (inner : ScopeId) (code : Node) :
    P.Advances (body verbosity call inner code) := by
  unfold body
  split
  · exact statements_advances hcall inner .null _
  · exact advances_throw _

end

/-! ## Calls and runs -/

theorem apply_advances {run : ScopeId → Node → EvalM Value}
    (h : ∀ inner code, P.Advances (run inner code)) :
    P.AdvancesCalls (apply verbosity run) := by
  intro f args
  cases f with
  | function k ps code scope =>
    rw [apply]
    split
    · exact advances_pure _
    · apply (advances_note (by decide) _).andThen
      intro _
      apply (advances_newScope scope).andThen
      intro inner
      apply (advances_bindAll inner _).andThen
      intro _
      exact (h inner code).andThen fun _ => advances_pure _
  | builtin b =>
    rw [apply]
    split
    · apply (advances_note (by decide) _).andThen
      intro _
      exact (advances_print _).andThen fun _ => advances_pure _
    · exact advances_pure _
  | _ => exact advances_pure _

theorem callUpTo_advances (limit : Nat) : P.AdvancesCalls (callUpTo verbosity limit) := by
  induction limit with
  | zero => exact apply_advances fun _ _ => advances_throw _
  | succ n ih => exact apply_advances (body_advances ih)

theorem runUpTo_advances (limit : Nat) (scope : ScopeId) (program : List Node) :
    P.Advances (runUpTo limit verbosity scope program) := by
  have hstatements : P.Advances
      (statements verbosity (callUpTo verbosity limit) scope .null program) :=
    statements_advances (callUpTo_advances limit) scope .null program
  apply (advances_note (Nat.le_refl 1) _).andThen
  intro _
  have hsettled : P.Advances (settleDepth do
      return (← statements verbosity (callUpTo verbosity limit) scope .null program).unwrapped) := by
    intro m
    rw [leaves_settleDepth]
    exact (hstatements.andThen fun v => advances_pure v.unwrapped) m
  apply hsettled.andThen
  intro v
  exact (advances_note (Nat.le_refl 1) _).andThen fun _ => advances_pure v

end Progress

/-! ## Notes -/

/-- Notes are only added to the trace, of levels from one up to the verbosity. -/
def noting (verbosity : Nat) : Progress verbosity where
  along m n := ∃ notes : Array Note,
    n.trace = m.trace ++ notes ∧ ∀ x ∈ notes, 1 ≤ x.level ∧ x.level ≤ verbosity
  refl m := ⟨#[], by simp⟩
  trans := by
    rintro l m n ⟨notes, hm, hnotes⟩ ⟨notes', hn, hnotes'⟩
    refine ⟨notes ++ notes', by rw [hn, hm, Array.append_assoc], fun x hx => ?_⟩
    rcases Array.mem_append.mp hx with hx | hx
    · exact hnotes x hx
    · exact hnotes' x hx
  noted m text level h h' := ⟨#[⟨level, text⟩], by simp, by simpa using ⟨h, h'⟩⟩
  printed m text := ⟨#[], by simp⟩
  bound m id name v := ⟨#[], by simp⟩
  entered m id := ⟨#[], by simp⟩
  made m := ⟨#[], by simp⟩

/-- Two ends of one program from machine `m`, under verbosities `v` and `w` with `v ≤ w`, that
differ in nothing but the trace, where the second one has further notes in between. -/
structure SelectsNotes (v w : Nat) (m : Machine) (r r' : EStateM.Result EvalFault Machine Value) :
    Prop where
  ended : ended r = ended r'
  output : (leaves r).output = (leaves r').output
  bindings : Store.Same (leaves r).store (leaves r').store
  /-- The second trace goes on with `notes`, and the first with those of them that have a level of
  at most `v`. -/
  trace : ∃ notes : Array Note, (leaves r').trace = m.trace ++ notes ∧
    (∀ x ∈ notes, 1 ≤ x.level ∧ x.level ≤ w) ∧
    (leaves r).trace = m.trace ++ notes.filter fun x => decide (x.level ≤ v)

theorem noted_of_le {v w : Nat} (h : v ≤ w) (notes : List Note) :
    noted v notes = (noted w notes).filter fun x => decide (x.level ≤ v) := by
  have hboth (x : Note) : (decide (x.level ≤ v) && decide (x.level ≤ w)) = decide (x.level ≤ v) := by
    rw [Bool.and_eq_left_iff_imp]
    intro hx
    exact decide_eq_true (Nat.le_trans (of_decide_eq_true hx) h)
  rw [noted, noted, List.filter_toArray, List.filter_filter]
  simp only [hboth]

/-- The verbosity decides which notes are made and nothing else: a run at a lower one ends with the
same result, output and bindings as at a higher one, and of the notes that the higher one makes it
makes those of a level that it asks for, in the same order. At verbosity `0` there is none. -/
theorem verbosity_selects_notes {v w : Nat} (h : v ≤ w) (limit : Nat) (scope : ScopeId)
    (program : List Node) (m : Machine) :
    SelectsNotes v w m (runUpTo limit v scope program m) (runUpTo limit w scope program m) ∧
    (leaves (runUpTo limit 0 scope program m)).trace = m.trace := by
  constructor
  · have hrun : Lockstep (.upTo id) v w m m (Value.Like (.upTo id)) (runUpTo limit v scope program)
        (runUpTo limit w scope program) := runUpTo_lockstep limit rfl rfl
    have hends := Lockstep.endAlike (.of_traces id m m.trace m.trace) hrun
    obtain ⟨notes, hv, hw⟩ := (hrun m m (.refl (.refl id m.store) fun _ => rfl)).tied.trace
    obtain ⟨made, hmade, hlevels⟩ := (noting w).runUpTo_advances limit scope program m
    obtain rfl : noted w notes = made := (Array.append_right_inj m.trace).mp (hw.symm.trans hmade)
    refine ⟨hends.ended_eq, hends.leaves.output, hends.leaves.store.same, noted w notes, hw,
      hlevels, ?_⟩
    rw [hv, noted_of_le h]
  · obtain ⟨made, hmade, hlevels⟩ := (noting 0).runUpTo_advances limit scope program m
    have hnone : made = #[] := by
      apply Array.eq_empty_iff_forall_not_mem.mpr
      intro x hx
      have := hlevels x hx
      omega
    rw [hmade, hnone, Array.append_empty]

/-- A `let`, a condition, an index and a call, of which the lower verbosity leaves all but the start
and the result of the run unmentioned. -/
theorem verbosity_selects_notes_between : ∃ program : List Node,
    parseStrict "let a = [true]; if (a[0]) { puts(a) }" = .ok program ∧ 1 ≤ 3 ∧
    (SelectsNotes 1 3 .initial (runUpTo 5 1 Store.globalScope program .initial)
        (runUpTo 5 3 Store.globalScope program .initial) ∧
      (leaves (runUpTo 5 0 Store.globalScope program .initial)).trace = #[]) ∧
    (leaves (runUpTo 5 3 Store.globalScope program .initial)).trace.toList.map Note.level =
      [1, 2, 3, 3, 2, 1] := by
  obtain ⟨program, hp, hlevels⟩ : ∃ program : List Node,
      parseStrict "let a = [true]; if (a[0]) { puts(a) }" = .ok program ∧
      (leaves (runUpTo 5 3 Store.globalScope program .initial)).trace.toList.map Note.level =
        [1, 2, 3, 3, 2, 1] := ⟨_, rfl, rfl⟩
  exact ⟨program, hp, by decide, verbosity_selects_notes (by decide) 5 _ program .initial, hlevels⟩

end Eval

end Simian
