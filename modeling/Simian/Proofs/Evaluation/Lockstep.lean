import Simian.Eval
import Simian.Proofs.Evaluation.Likeness
import Simian.Proofs.Steps

/-!
# Evaluations in lockstep

Trees that are the same up to tokens, evaluated in scopes that stand for each other, do the same
one step after the other: they give values that are alike, they print the same text, and the
stores stay joined. Of the notes that can be made each evaluation makes those that its verbosity
asks for. Two machines are compared with the machines that they were reached from, whose own output
and trace need not agree.
-/

namespace Simian

open Machine Value
set_option autoImplicit false

/-- The notes that are made at a verbosity. -/
def Machine.noted (verbosity : Nat) (notes : List Note) : Array Note :=
  (notes.filter fun n => decide (n.level ≤ verbosity)).toArray

theorem Machine.noted_append (verbosity level : Nat) (notes : List Note) (text : String) :
    noted verbosity (notes ++ [⟨level, text⟩]) =
      if level ≤ verbosity then (noted verbosity notes).push ⟨level, text⟩
      else noted verbosity notes := by
  unfold noted
  split
  · next h => simp [h]
  · next h => simp [h]

/-- Machines that were reached in lockstep from `a` with verbosity `v` and from `b` with `w`. -/
structure Machine.Tied (L : Likeness) (v w : Nat) (a b m n : Machine) : Prop where
  store : Store.Joined L m.store n.store
  /-- The functions that will be made next stand for each other. -/
  functions : ∀ k, L.number (m.functions + k) (n.functions + k)
  output : ∃ text, m.output = a.output ++ text ∧ n.output = b.output ++ text
  trace : ∃ notes, m.trace = a.trace ++ noted v notes ∧ n.trace = b.trace ++ noted w notes

theorem Machine.Tied.refl {L : Likeness} {v w : Nat} {a b : Machine}
    (h : Store.Joined L a.store b.store)
    (hf : ∀ k, L.number (a.functions + k) (b.functions + k)) : Tied L v w a b a b where
  store := h
  functions := hf
  output := ⟨"", by simp⟩
  trace := ⟨[], by simp [noted]⟩

namespace Eval

/-- Faults that a program cannot tell apart. -/
inductive SameFault (L : Likeness) : EvalFault → EvalFault → Prop where
  | unexpected (tree : Tree) : SameFault L (.unexpected tree) (.unexpected tree)
  | noStatements {c d : Node} : c.mapTokens L.tokens = d.mapTokens L.tokens →
      SameFault L (.noStatements c) (.noStatements d)
  | tooDeep : SameFault L .tooDeep .tooDeep

/-- Ends of two evaluations that went in lockstep. -/
inductive Alongside {α β : Type} (L : Likeness) (v w : Nat) (a b : Machine) (rel : α → β → Prop) :
    EStateM.Result EvalFault Machine α → EStateM.Result EvalFault Machine β → Prop where
  | ok {x : α} {y : β} {m n : Machine} : Tied L v w a b m n → rel x y →
      Alongside L v w a b rel (.ok x m) (.ok y n)
  | error {f g : EvalFault} {m n : Machine} : Tied L v w a b m n → SameFault L f g →
      Alongside L v w a b rel (.error f m) (.error g n)

def Lockstep {α β : Type} (L : Likeness) (v w : Nat) (a b : Machine) (rel : α → β → Prop)
    (p : EvalM α) (q : EvalM β) : Prop :=
  ∀ m n : Machine, Tied L v w a b m n → Alongside L v w a b rel (p m) (q n)

section
variable {α β γ δ : Type} {L : Likeness} {v w : Nat} {a b : Machine} {i j : ScopeId}
  {rel : α → β → Prop} {rel' : γ → δ → Prop} {p : EvalM α} {q : EvalM β}

/-! ## Sequences and single steps -/

theorem Lockstep.andThen {f : α → EvalM γ} {g : β → EvalM δ} (h : Lockstep L v w a b rel p q)
    (hf : ∀ x y, rel x y → Lockstep L v w a b rel' (f x) (g y)) :
    Lockstep L v w a b rel' (p >>= f) (q >>= g) := by
  intro m n ht
  have hpq := h m n ht
  generalize hp : p m = r, hq : q n = r' at hpq
  cases hpq with
  | ok ht' hr =>
    rw [bind_of_ok hp, bind_of_ok hq]
    exact hf _ _ hr _ _ ht'
  | error ht' hfault =>
    rw [bind_of_error hp, bind_of_error hq]
    exact .error ht' hfault

/-- A step without a result of its own. -/
theorem Lockstep.next {p q : EvalM Unit} {f : Unit → EvalM γ} {g : Unit → EvalM δ}
    (h : Lockstep L v w a b (fun _ _ => True) p q)
    (hf : Lockstep L v w a b rel' (f ()) (g ())) :
    Lockstep L v w a b rel' (p >>= f) (q >>= g) :=
  h.andThen fun _ _ _ => hf

theorem lockstep_pure {x : α} {y : β} (h : rel x y) : Lockstep L v w a b rel (pure x) (pure y) :=
  fun _ _ ht => .ok ht h

theorem lockstep_throw {f g : EvalFault} (h : SameFault L f g) :
    Lockstep L v w a b rel (throw f) (throw g) :=
  fun _ _ ht => .error ht h

theorem lockstep_note (level : Nat) (text : Unit → String) :
    Lockstep L v w a b (fun _ _ => True) (note v level text) (note w level text) := by
  intro m n ht
  obtain ⟨notes, hm, hn⟩ := ht.trace
  rw [note_eq, note_eq]
  refine .ok ⟨ht.store, ht.functions, ht.output, notes ++ [⟨level, text ()⟩], ?_, ?_⟩ trivial
  · rw [hm, noted_append]
    split
    · exact Array.push_append
    · rfl
  · rw [hn, noted_append]
    split
    · exact Array.push_append
    · rfl

theorem lockstep_print (text : String) :
    Lockstep L v w a b (fun _ _ => True) (print text) (print text) := by
  intro m n ht
  obtain ⟨printed, hm, hn⟩ := ht.output
  refine .ok ⟨ht.store, ht.functions, ⟨printed ++ text, ?_, ?_⟩, ht.trace⟩ trivial
  · rw [hm, String.append_assoc]
  · rw [hn, String.append_assoc]

theorem lockstep_lookup (hs : L.scope i j) (name : String) :
    Lockstep L v w a b (Option.Rel (Like L)) (lookup i name) (lookup j name) :=
  fun _ _ ht => .ok ht (ht.store.get? hs name)

theorem lockstep_bind (hs : L.scope i j) (name : String) {x y : Value} (hx : Like L x y) :
    Lockstep L v w a b (fun _ _ => True) (bind i name x) (bind j name y) :=
  fun _ _ ht => .ok ⟨ht.store.set hs name hx, ht.functions, ht.output, ht.trace⟩ trivial

theorem lockstep_bindAll (hs : L.scope i j) (ps : List String) {xs ys : List Value}
    (hxs : List.Forall₂ (Like L) xs ys) :
    Lockstep L v w a b (fun _ _ => True) (bindAll i (ps.zip xs)) (bindAll j (ps.zip ys)) := by
  induction ps generalizing xs ys with
  | nil => exact lockstep_pure trivial
  | cons name ps ih =>
    cases hxs with
    | nil => exact lockstep_pure trivial
    | cons hx hxs => exact (lockstep_bind hs name hx).next (ih hxs)

theorem lockstep_newScope (hs : L.scope i j) :
    Lockstep L v w a b L.scope (newScope i) (newScope j) :=
  fun _ _ ht => .ok
    ⟨ht.store.addScope (ht.store.chain hs), ht.functions, ht.output, ht.trace⟩ (ht.store.later 0)

theorem lockstep_newFunction (hs : L.scope i j) (ps : List String) {c d : Node}
    (hc : c.mapTokens L.tokens = d.mapTokens L.tokens) :
    Lockstep L v w a b (Like L) (newFunction ps c i) (newFunction ps d j) := by
  intro m n ht
  refine .ok ⟨ht.store, fun k => ?_, ht.output, ht.trace⟩ (.function (ht.functions 0) hc hs)
  have hnext := ht.functions (1 + k)
  rwa [← Nat.add_assoc, ← Nat.add_assoc] at hnext

/-- A part that is evaluated before the rest, which a signal leaves out. -/
theorem Lockstep.unless {p q : EvalM Value} {f g : Value → EvalM Value}
    (h : Lockstep L v w a b (Like L) p q)
    (hf : ∀ x y, Like L x y → Lockstep L v w a b (Like L) (f x) (g y)) :
    Lockstep L v w a b (Like L) (p >>= fun x => unlessSignal x (f x))
      (q >>= fun y => unlessSignal y (g y)) := by
  apply h.andThen
  intro x y hx
  unfold unlessSignal
  rw [← hx.isSignal_eq]
  split
  · exact lockstep_pure hx
  · exact hf x y hx

theorem Lockstep.unwrapped {p q : EvalM Value} (h : Lockstep L v w a b (Like L) p q) :
    Lockstep L v w a b (Like L) (do return (← p).unwrapped) (do return (← q).unwrapped) :=
  h.andThen fun _ _ hx => lockstep_pure hx.unwrapped

/-! ## Constructs -/

theorem identifier_lockstep (hs : L.scope i j) (name : String) :
    Lockstep L v w a b (Like L) (identifier i name) (identifier j name) := by
  apply (lockstep_lookup hs name).andThen
  intro x y hxy
  cases hxy with
  | some hx => exact lockstep_pure hx
  | none =>
    cases Builtin.ofName? name with
    | some f => exact lockstep_pure (.builtin f)
    | none => exact lockstep_pure (.error _)

theorem index_lockstep {c d x y : Value} (hc : Like L c d) (hx : Like L x y) :
    Lockstep L v w a b (Like L) (Eval.index v c x) (Eval.index w d y) := by
  have htext := hc.inspect_eq
  cases hc with
  | array hes =>
    cases hx with
    | integer n =>
      simp only [Eval.index, indexOperands, htext]
      exact (lockstep_note _ _).next (lockstep_pure (Like.elementAt hes n))
    | _ => exact lockstep_pure (.error _)
  | _ => exact lockstep_pure (.error _)

/-- Calls of values that are alike go in lockstep. -/
def LikeCalls (L : Likeness) (v w : Nat) (a b : Machine) (call call' : Caller) : Prop :=
  ∀ (f g : Value) (xs ys : List Value), Like L f g → List.Forall₂ (Like L) xs ys →
    Lockstep L v w a b (Like L) (call f xs) (call' g ys)

/-- The values of expressions, or the signals that two of them gave. -/
inductive LikeLists (L : Likeness) :
    Except Value (List Value) → Except Value (List Value) → Prop where
  | values {xs ys : List Value} : List.Forall₂ (Like L) xs ys → LikeLists L (.ok xs) (.ok ys)
  | signal {x y : Value} : Like L x y → LikeLists L (.error x) (.error y)

end

section
variable {L : Likeness} {v w : Nat} {a b : Machine} {call call' : Caller}

-- The recursion is on the first tree; the second one is the same construct by
-- `paired_of_mapTokens_eq`.
mutual

theorem node_lockstep (hcall : LikeCalls L v w a b call call') : ∀ (m : Node) {n : Node}
    {i j : ScopeId}, L.scope i j → m.mapTokens L.tokens = n.mapTokens L.tokens →
    Lockstep L v w a b (Like L) (Eval.node v call i m) (Eval.node w call' j n)
  | .program ss, _, i, j, hs, h => by
    cases Node.paired_of_mapTokens_eq h with
    | program hss =>
      rw [Eval.node, Eval.node]
      exact (statements_lockstep hcall ss hs .null hss).unwrapped
  | .letStatement _ name e, _, i, j, hs, h => by
    cases Node.paired_of_mapTokens_eq h with
    | letStatement hname he =>
      rw [Eval.node, Eval.node, ← hname]
      apply (node_lockstep hcall e hs he).unless
      intro x y hx
      rw [← hx.inspect_eq]
      exact (lockstep_bind hs name.name hx).next ((lockstep_note _ _).next (lockstep_pure .null))
  | .returnStatement _ none, _, i, j, hs, h => by
    cases Node.paired_of_mapTokens_eq h with
    | @returnStatement _ _ _ d he =>
      cases d with
      | none =>
        rw [Eval.node, Eval.node]
        exact lockstep_pure (.returned .null)
      | some d => cases he
  | .returnStatement _ (some e), _, i, j, hs, h => by
    cases Node.paired_of_mapTokens_eq h with
    | @returnStatement _ _ _ d he =>
      cases d with
      | none => cases he
      | some d =>
        rw [Eval.node, Eval.node]
        apply (node_lockstep hcall e hs (Option.some.inj he)).unless
        exact fun _ _ hx => lockstep_pure (.returned hx)
  | .expressionStatement _ e, _, i, j, hs, h => by
    cases Node.paired_of_mapTokens_eq h with
    | expressionStatement he =>
      rw [Eval.node, Eval.node]
      exact node_lockstep hcall e hs he
  | .block _ ss, _, i, j, hs, h => by
    cases Node.paired_of_mapTokens_eq h with
    | block hss =>
      rw [Eval.node, Eval.node]
      exact statements_lockstep hcall ss hs .null hss
  | .ident name, _, i, j, hs, h => by
    cases Node.paired_of_mapTokens_eq h with
    | ident hname =>
      rw [Eval.node, Eval.node, ← hname]
      exact identifier_lockstep hs name.name
  | .integer _ n, _, i, j, hs, h => by
    cases Node.paired_of_mapTokens_eq h with
    | integer =>
      rw [Eval.node, Eval.node]
      exact lockstep_pure (.integer n)
  | .string _ s, _, i, j, hs, h => by
    cases Node.paired_of_mapTokens_eq h with
    | string =>
      rw [Eval.node, Eval.node]
      exact lockstep_pure (.string s)
  | .boolean _ c, _, i, j, hs, h => by
    cases Node.paired_of_mapTokens_eq h with
    | boolean =>
      rw [Eval.node, Eval.node]
      exact lockstep_pure (.boolean c)
  | .array _ es, _, i, j, hs, h => by
    cases Node.paired_of_mapTokens_eq h with
    | array hes =>
      rw [Eval.node, Eval.node]
      apply (expressions_lockstep hcall es hs hes).andThen
      intro x y hxy
      cases hxy with
      | values hxs => exact lockstep_pure (.array hxs)
      | signal hx => exact lockstep_pure hx
  | .prefixOp _ op e, _, i, j, hs, h => by
    cases Node.paired_of_mapTokens_eq h with
    | prefixOp he =>
      rw [Eval.node, Eval.node]
      apply (node_lockstep hcall e hs he).unless
      exact fun _ _ hx => lockstep_pure (hx.prefixOp op)
  | .infixOp _ op left right, _, i, j, hs, h => by
    cases Node.paired_of_mapTokens_eq h with
    | infixOp hleft hright =>
      rw [Eval.node, Eval.node]
      apply (node_lockstep hcall left hs hleft).unless
      intro x y hx
      apply (node_lockstep hcall right hs hright).unless
      exact fun _ _ hx' => lockstep_pure (hx.infixOp op hx')
  | .conditional _ c e none, _, i, j, hs, h => by
    cases Node.paired_of_mapTokens_eq h with
    | @conditional _ _ _ _ _ _ _ d hc he hd =>
      cases d with
      | some d => cases hd
      | none =>
        rw [Eval.node, Eval.node]
        apply (node_lockstep hcall c hs hc).unless
        intro x y hx
        rw [← hx.isTruthy_eq, ← hx.inspect_eq]
        apply (lockstep_note _ _).next
        split
        · exact node_lockstep hcall e hs he
        · exact lockstep_pure .null
  | .conditional _ c e (some d), _, i, j, hs, h => by
    cases Node.paired_of_mapTokens_eq h with
    | @conditional _ _ _ _ _ _ _ d' hc he hd =>
      cases d' with
      | none => cases hd
      | some d' =>
        rw [Eval.node, Eval.node]
        apply (node_lockstep hcall c hs hc).unless
        intro x y hx
        rw [← hx.isTruthy_eq, ← hx.inspect_eq]
        apply (lockstep_note _ _).next
        split
        · exact node_lockstep hcall e hs he
        · exact node_lockstep hcall d hs (Option.some.inj hd)
  | .function _ ps code, _, i, j, hs, h => by
    cases Node.paired_of_mapTokens_eq h with
    | function hps hc =>
      rw [Eval.node, Eval.node, ← hps]
      exact lockstep_newFunction hs _ hc
  | .call _ f es, _, i, j, hs, h => by
    cases Node.paired_of_mapTokens_eq h with
    | call hf hes =>
      rw [Eval.node, Eval.node]
      apply (node_lockstep hcall f hs hf).unless
      intro x y hx
      apply (expressions_lockstep hcall es hs hes).andThen
      intro xs ys hxs
      cases hxs with
      | values hxs => exact hcall x y _ _ hx hxs
      | signal hx => exact lockstep_pure hx
  | .index _ c e, _, i, j, hs, h => by
    cases Node.paired_of_mapTokens_eq h with
    | index hc he =>
      rw [Eval.node, Eval.node]
      apply (node_lockstep hcall c hs hc).unless
      intro x y hx
      apply (node_lockstep hcall e hs he).unless
      exact fun _ _ hx' => index_lockstep hx hx'
  | .datum tree, _, i, j, hs, h => by
    cases Node.paired_of_mapTokens_eq h with
    | datum =>
      rw [Eval.node, Eval.node]
      exact lockstep_throw (.unexpected tree)

theorem statements_lockstep (hcall : LikeCalls L v w a b call call') : ∀ (ss : List Node)
    {rs : List Node} {i j : ScopeId} {x y : Value}, L.scope i j → Like L x y →
    ss.map (Node.mapTokens L.tokens) = rs.map (Node.mapTokens L.tokens) →
    Lockstep L v w a b (Like L) (Eval.statements v call i x ss) (Eval.statements w call' j y rs)
  | [], rs, i, j, x, y, hs, hx, h => by
    obtain rfl := List.map_eq_nil_iff.mp h.symm
    rw [Eval.statements, Eval.statements]
    exact lockstep_pure hx
  | s :: ss, rs, i, j, x, y, hs, hx, h => by
    obtain ⟨r, rs, rfl, hr, hrs⟩ := List.map_eq_cons_iff.mp h.symm
    rw [Eval.statements, Eval.statements]
    apply (node_lockstep hcall s hs hr.symm).unless
    intro x' y' hx'
    exact statements_lockstep hcall ss hs hx' hrs.symm

theorem expressions_lockstep (hcall : LikeCalls L v w a b call call') : ∀ (es : List Node)
    {ds : List Node} {i j : ScopeId}, L.scope i j →
    es.map (Node.mapTokens L.tokens) = ds.map (Node.mapTokens L.tokens) →
    Lockstep L v w a b (LikeLists L) (Eval.expressions v call i es) (Eval.expressions w call' j ds)
  | [], ds, i, j, hs, h => by
    obtain rfl := List.map_eq_nil_iff.mp h.symm
    rw [Eval.expressions, Eval.expressions]
    exact lockstep_pure (.values .nil)
  | e :: es, ds, i, j, hs, h => by
    obtain ⟨d, ds, rfl, hd, hds⟩ := List.map_eq_cons_iff.mp h.symm
    rw [Eval.expressions, Eval.expressions]
    apply (node_lockstep hcall e hs hd.symm).andThen
    intro x y hx
    rw [← hx.isSignal_eq]
    split
    · exact lockstep_pure (.signal hx)
    · apply (expressions_lockstep hcall es hs hds.symm).andThen
      intro xs ys hxs
      cases hxs with
      | values hxs => exact lockstep_pure (.values (.cons hx hxs))
      | signal hx => exact lockstep_pure (.signal hx)

end

/-! ## Calls and runs -/

theorem body_lockstep (hcall : LikeCalls L v w a b call call') {i j : ScopeId} {c d : Node}
    (hs : L.scope i j) (h : c.mapTokens L.tokens = d.mapTokens L.tokens) :
    Lockstep L v w a b (Like L) (Eval.body v call i c) (Eval.body w call' j d) := by
  have hfault : Lockstep L v w a b (Like L) (throw (.noStatements c)) (throw (.noStatements d)) :=
    lockstep_throw (.noStatements h)
  unfold Eval.body
  cases Node.paired_of_mapTokens_eq h with
  | program hss => exact statements_lockstep hcall _ hs .null hss
  | block hss => exact statements_lockstep hcall _ hs .null hss
  | _ => exact hfault

theorem apply_lockstep {run run' : ScopeId → Node → EvalM Value}
    (h : ∀ (i j : ScopeId) (c d : Node), L.scope i j →
      c.mapTokens L.tokens = d.mapTokens L.tokens →
      Lockstep L v w a b (Like L) (run i c) (run' j d)) :
    LikeCalls L v w a b (Eval.apply v run) (Eval.apply w run') := by
  intro f g xs ys hf hxs
  have hargs : argumentsText xs = argumentsText ys := by
    rw [argumentsText, argumentsText, Like.inspectAll_eq hxs]
  have hlen := hxs.length_eq
  cases hf with
  | @function _ _ ps c d i j _ hc hs =>
    rw [Eval.apply, Eval.apply, ← hlen]
    split
    · exact lockstep_pure (.error _)
    · rw [← hargs]
      apply (lockstep_note _ _).next
      apply (lockstep_newScope hs).andThen
      intro k l hnew
      exact (lockstep_bindAll hnew ps hxs).next (h k l c d hnew hc).unwrapped
  | builtin f =>
    rw [Eval.apply, Eval.apply, ← hlen]
    split
    · rw [← hargs, ← Like.printed_eq f hxs]
      apply (lockstep_note _ _).next
      exact (lockstep_print _).next (lockstep_pure (Like.result f hxs))
    · exact lockstep_pure (.error _)
  | _ => exact lockstep_pure (.error _)

theorem callUpTo_lockstep (limit : Nat) :
    LikeCalls L v w a b (Eval.callUpTo v limit) (Eval.callUpTo w limit) := by
  -- Bodies are compared up to tokens only, so the induction is on the depth alone.
  induction limit with
  | zero => exact apply_lockstep fun _ _ _ _ _ _ => lockstep_throw .tooDeep
  | succ n ih => exact apply_lockstep fun _ _ _ _ hs hc => body_lockstep ih hs hc

variable {i j : ScopeId}

theorem Lockstep.settleDepth {p q : EvalM Value} (h : Lockstep L v w a b (Like L) p q) :
    Lockstep L v w a b (Like L) (settleDepth p) (settleDepth q) := by
  intro m n ht
  have hpq := h m n ht
  unfold Eval.settleDepth
  generalize p m = r, q n = r' at hpq
  cases hpq with
  | ok ht' hx => exact .ok ht' hx
  | error ht' hf =>
    cases hf with
    | tooDeep => exact .ok ht' (.error _)
    | unexpected tree => exact .error ht' (.unexpected tree)
    | noStatements hc => exact .error ht' (.noStatements hc)

theorem runUpTo_lockstep (limit : Nat) (hs : L.scope i j) {ss rs : List Node}
    (h : ss.map (Node.mapTokens L.tokens) = rs.map (Node.mapTokens L.tokens)) :
    Lockstep L v w a b (Like L) (runUpTo limit v i ss) (runUpTo limit w j rs) := by
  have hlen : ss.length = rs.length := by
    rw [← List.length_map (Node.mapTokens L.tokens), h, List.length_map]
  unfold runUpTo
  rw [← hlen]
  apply (lockstep_note _ _).next
  have hcall : LikeCalls L v w a b (callUpTo v limit) _ := callUpTo_lockstep limit
  apply (statements_lockstep hcall ss hs .null h).unwrapped.settleDepth.andThen
  intro x y hx
  rw [← hx.type_eq, ← hx.inspect_eq]
  exact (lockstep_note _ _).next (lockstep_pure hx)

end

end Eval

end Simian
