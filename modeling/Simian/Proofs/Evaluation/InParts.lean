import Simian.Proofs.Evaluation.Tokenless
import Simian.Proofs.Seam

/-!
# Running in parts

A program that is run at once does what its parts do when they are run one after the other in the
same scope, up to the places of tokens. It does so as long as the first part runs through; where
that ends with an error or a `return`, the rest is not run at all.
-/

namespace Simian

open Machine Value
set_option autoImplicit false

/-- A token without its place. -/
def Token.unplaced (t : Token) : Token := ⟨t.kind, t.literal, ⟨0, 0⟩⟩

/-- Nothing may differ but tokens that `f` makes equal. -/
def Likeness.upTo (f : Token → Token) : Likeness := ⟨f, Eq, Eq⟩

mutual

theorem Value.Like.eq : ∀ {v w : Value}, Like (.upTo id) v w → v = w
  | _, _, .integer _ | _, _, .boolean _ | _, _, .null | _, _, .string _ | _, _, .builtin _
  | _, _, .error _ => rfl
  | _, _, .array hs => congrArg Value.array (Like.allEq hs)
  | _, _, .function hk hc hi => by
    obtain rfl : _ = _ := hk
    obtain rfl : _ = _ := hi
    change Node.mapTokens id _ = Node.mapTokens id _ at hc
    rw [Node.mapTokens_id, Node.mapTokens_id] at hc
    rw [hc]
  | _, _, .returned h => congrArg Value.returned (Like.eq h)

theorem Value.Like.allEq : ∀ {vs ws : List Value}, List.Forall₂ (Like (.upTo id)) vs ws → vs = ws
  | _, _, .nil => rfl
  | _, _, .cons h hs => congrArg₂ List.cons (Like.eq h) (Like.allEq hs)

end

namespace Store

theorem Joined.refl (f : Token → Token) (s : Store) : Joined (.upTo f) s s where
  unique := by
    rintro i i' _ _ rfl rfl
    exact Iff.rfl
  later k := rfl
  own := by
    rintro i _ rfl name
    cases s.own? i name with
    | none => exact .none
    | some v => exact .some (Like.refl (fun _ => rfl) v fun _ _ => rfl)
  outer := by
    rintro i _ rfl
    exact List.forall₂_same.mpr fun _ _ => rfl

/-- The same scopes with the same bindings. -/
structure Same (s t : Store) : Prop where
  size : s.scopes.size = t.scopes.size
  outer (i : ScopeId) : (s.scope i).outer = (t.scope i).outer
  own (i : ScopeId) (name : String) : s.own? i name = t.own? i name

theorem Joined.same {s t : Store} (h : Joined (.upTo id) s t) : Same s t where
  size := h.later 0
  outer i := List.forall₂_eq_eq_eq ▸ h.outer (j := i) rfl
  own i name := by
    have hown := h.own (j := i) rfl name
    generalize s.own? i name = x, t.own? i name = y at hown
    cases hown with
    | none => rfl
    | some hv => exact congrArg some hv.eq

end Store

namespace Machine

/-- Machines that differ in their traces, and in the rest as the likeness allows. -/
structure Matched (L : Likeness) (m n : Machine) : Prop where
  store : Store.Joined L m.store n.store
  functions : ∀ k, L.number (m.functions + k) (n.functions + k)
  output : m.output = n.output

section
variable {L : Likeness} {v w : Nat} {m n : Machine}

theorem Matched.of_tied {a b : Machine} (h : Matched L a b) (ht : Tied L v w a b m n) :
    Matched L m n := by
  obtain ⟨text, hm, hn⟩ := ht.output
  exact ⟨ht.store, ht.functions, by rw [hm, hn, h.output]⟩

theorem Matched.of_traces (f : Token → Token) (m : Machine) (trace trace' : Array Note) :
    Matched (.upTo f) { m with trace := trace } { m with trace := trace' } :=
  ⟨.refl f m.store, fun _ => rfl, rfl⟩

theorem Matched.retraced (h : Matched L m n) (trace trace' : Array Note) :
    Matched L { m with trace := trace } { n with trace := trace' } :=
  ⟨h.store, h.functions, h.output⟩

end

end Machine

namespace Eval

/-- Two evaluations end alike, with values that are alike or with the same fault. -/
inductive EndAlike (L : Likeness) : EStateM.Result EvalFault Machine Value →
    EStateM.Result EvalFault Machine Value → Prop where
  | ok {x y : Value} {m n : Machine} : Like L x y → Matched L m n → EndAlike L (.ok x m) (.ok y n)
  | error {f g : EvalFault} {m n : Machine} : SameFault L f g → Matched L m n →
      EndAlike L (.error f m) (.error g n)

section
variable {L : Likeness} {v w : Nat} {m n : Machine}

theorem Lockstep.endAlike {p q : EvalM Value} (hmn : Matched L m n)
    (h : Lockstep L v w m n (Like L) p q) : EndAlike L (p m) (q n) := by
  have hpq := h m n (.refl hmn.store hmn.functions)
  generalize p m = r, q n = r' at hpq
  cases hpq with
  | ok ht hx => exact .ok hx (hmn.of_tied ht)
  | error ht hf => exact .error hf (hmn.of_tied ht)

end

/-! ## Runs without notes -/

/-- What running a program comes to but for the notes about the run. -/
def unnoted (limit verbosity : Nat) (scope : ScopeId) (program : List Node) : EvalM Value :=
  settleDepth do
    return (← statements verbosity (callUpTo verbosity limit) scope .null program).unwrapped

/-- The end of an evaluation with another trace. -/
def retraced (trace : Array Note) : EStateM.Result EvalFault Machine Value →
    EStateM.Result EvalFault Machine Value
  | .ok v m => .ok v { m with trace := trace }
  | .error f m => .error f { m with trace := trace }

/-- The statements of a program are all run: none of them gives an error or is left by `return`. -/
def RunsThrough (limit verbosity : Nat) (scope : ScopeId) (program : List Node) (m : Machine) :
    Prop :=
  ∃ v n, statements verbosity (callUpTo verbosity limit) scope .null program m = .ok v n ∧
    v.isSignal = false

section
variable {limit verbosity : Nat} {scope : ScopeId} {program : List Node}

theorem exists_runUpTo_eq (program : List Node) (m : Machine) : ∃ before after : Array Note,
    runUpTo limit verbosity scope program m =
      retraced after (unnoted limit verbosity scope program { m with trace := before }) := by
  have hstart : ∃ before, runUpTo limit verbosity scope program m =
      (do
        let v ← unnoted limit verbosity scope program
        note verbosity 1 fun _ => "result " ++ v.type.name ++ ": " ++ v.inspect
        return v) { m with trace := before } := ⟨_, bind_of_ok (note_eq _ _ _ _)⟩
  obtain ⟨before, hrun⟩ := hstart
  refine ⟨before, ?_⟩
  rw [hrun]
  cases hend : unnoted limit verbosity scope program { m with trace := before } with
  | ok v n =>
    rw [bind_of_ok hend, bind_of_ok (note_eq _ _ _ _)]
    exact ⟨_, rfl⟩
  | error f n =>
    rw [bind_of_error hend]
    exact ⟨n.trace, rfl⟩

theorem leaves_retraced (trace : Array Note) (r : EStateM.Result EvalFault Machine Value) :
    leaves (retraced trace r) = { leaves r with trace := trace } := by
  cases r <;> rfl

theorem EndAlike.retraced {L : Likeness} {r r' : EStateM.Result EvalFault Machine Value}
    (h : EndAlike L r r') (trace trace' : Array Note) :
    EndAlike L (retraced trace r) (retraced trace' r') := by
  cases h with
  | ok hx hm => exact .ok hx (hm.retraced _ _)
  | error hf hm => exact .error hf (hm.retraced _ _)

/-! ## One part after the other -/

variable {call : Caller} {v : Value} {m n : Machine} {p q : List Node}

/-- Statements behind others are run if those are. -/
theorem statements_append (hx : v.isSignal = false) :
    statements verbosity call scope v (p ++ q) =
      statements verbosity call scope v p >>= fun w =>
        unlessSignal w (statements verbosity call scope w q) := by
  induction p generalizing v with
  | nil =>
    rw [List.nil_append, statements, pure_bind, unlessSignal, hx]
    rfl
  | cons s ss ih =>
    rw [List.cons_append, statements, statements, bind_assoc]
    congr 1
    funext w
    cases hw : w.isSignal with
    | true => simp [unlessSignal, hw]
    | false => simp [unlessSignal, hw, ih hw]

theorem statements_of_stopped (h : ¬ RunsThrough limit verbosity scope p m) :
    statements verbosity (callUpTo verbosity limit) scope .null (p ++ q) m =
      statements verbosity (callUpTo verbosity limit) scope .null p m := by
  rw [statements_append rfl]
  cases hp : statements verbosity (callUpTo verbosity limit) scope .null p m with
  | error f n => exact bind_of_error hp
  | ok v n =>
    have hv : v.isSignal = true := by
      by_contra hv
      exact h ⟨v, n, hp, Bool.eq_false_iff.mpr hv⟩
    rw [bind_of_ok hp, unlessSignal, if_pos hv]
    rfl

theorem statements_of_through
    (h : statements verbosity (callUpTo verbosity limit) scope .null p m = .ok v n)
    (hv : v.isSignal = false) (hq : q ≠ []) :
    statements verbosity (callUpTo verbosity limit) scope .null (p ++ q) m =
      statements verbosity (callUpTo verbosity limit) scope .null q n := by
  rw [statements_append rfl, bind_of_ok h, unlessSignal, hv]
  cases q with
  | nil => exact absurd rfl hq
  | cons s ss => rfl

theorem unnoted_congr (h : statements verbosity (callUpTo verbosity limit) scope .null p m =
      statements verbosity (callUpTo verbosity limit) scope .null q n) :
    unnoted limit verbosity scope p m = unnoted limit verbosity scope q n := by
  have hend : (do return (← statements verbosity (callUpTo verbosity limit) scope .null p).unwrapped
      : EvalM Value) m = (do return (← statements verbosity (callUpTo verbosity limit) scope .null
        q).unwrapped : EvalM Value) n := by
    change EStateM.bind _ _ m = EStateM.bind _ _ n
    rw [EStateM.bind, EStateM.bind, h]
  rw [unnoted, unnoted, settleDepth, settleDepth, hend]

theorem unnoted_of_ok
    (h : statements verbosity (callUpTo verbosity limit) scope .null p m = .ok v n) :
    unnoted limit verbosity scope p m = .ok v.unwrapped n := by
  have hend : (do return (← statements verbosity (callUpTo verbosity limit) scope .null p).unwrapped
      : EvalM Value) m = .ok v.unwrapped n := bind_of_ok h
  rw [unnoted, settleDepth, hend]

variable {L : Likeness}

theorem statements_endAlike (limit verbosity : Nat) (scope : ScopeId) (hs : L.scope scope scope)
    (hpq : p.map (Node.mapTokens L.tokens) = q.map (Node.mapTokens L.tokens))
    (hmn : Matched L m n) :
    EndAlike L (statements verbosity (callUpTo verbosity limit) scope .null p m)
      (statements verbosity (callUpTo verbosity limit) scope .null q n) :=
  Lockstep.endAlike hmn (statements_lockstep (callUpTo_lockstep limit) p hs .null hpq)

theorem unnoted_endAlike (limit verbosity : Nat) (scope : ScopeId) (hs : L.scope scope scope)
    (hpq : p.map (Node.mapTokens L.tokens) = q.map (Node.mapTokens L.tokens))
    (hmn : Matched L m n) :
    EndAlike L (unnoted limit verbosity scope p m) (unnoted limit verbosity scope q n) :=
  Lockstep.endAlike hmn
    (statements_lockstep (callUpTo_lockstep limit) p hs .null hpq).unwrapped.settleDepth

theorem RunsThrough.of_matched (h : RunsThrough limit verbosity scope p m)
    (hs : L.scope scope scope) (hmn : Matched L m n) :
    RunsThrough limit verbosity scope p n := by
  obtain ⟨v, m', hp, hv⟩ := h
  have hends := statements_endAlike limit verbosity scope hs (p := p) rfl hmn
  rw [hp] at hends
  generalize hr : statements verbosity (callUpTo verbosity limit) scope .null p n = r at hends
  cases hends with
  | ok hx _ => exact ⟨_, _, hr, hx.isSignal_eq ▸ hv⟩

end

/-! ## The whole and its parts -/

/-- The value or the fault that an evaluation ends with. -/
def ended {α : Type} : EStateM.Result EvalFault Machine α → Except EvalFault α
  | .ok v _ => .ok v
  | .error f _ => .error f

theorem EndAlike.leaves {L : Likeness} {r r' : EStateM.Result EvalFault Machine Value}
    (h : EndAlike L r r') : Matched L (leaves r) (leaves r') := by
  cases h with
  | ok _ hm => exact hm
  | error _ hm => exact hm

theorem EndAlike.ended_eq {r r' : EStateM.Result EvalFault Machine Value}
    (h : EndAlike (.upTo id) r r') : ended r = ended r' := by
  cases h with
  | ok hx _ => exact congrArg Except.ok hx.eq
  | error hf _ =>
    cases hf with
    | unexpected tree => rfl
    | tooDeep => rfl
    | @noStatements c d hc =>
      change c.mapTokens id = d.mapTokens id at hc
      rw [Node.mapTokens_id, Node.mapTokens_id] at hc
      rw [hc]
      rfl

section
variable (limit verbosity : Nat) (scope : ScopeId)

/-- Running `whole` on a machine does what running `p` does and, if that runs through, what running
`q` after it does. -/
structure RunInParts (p q whole : List Node) (m : Machine) : Prop where
  /-- The same result, the text of both runs and the same bindings, up to places. -/
  through : RunsThrough limit verbosity scope p m →
    EndAlike (.upTo Token.unplaced) (runUpTo limit verbosity scope whole m)
      (runUpTo limit verbosity scope q (leaves (runUpTo limit verbosity scope p m)))
  output : ∃ text text', (leaves (runUpTo limit verbosity scope p m)).output = m.output ++ text ∧
    (leaves (runUpTo limit verbosity scope q
      (leaves (runUpTo limit verbosity scope p m)))).output = m.output ++ text ++ text'
  /-- Exactly the result, text and bindings of the first run. -/
  stopped : ¬ RunsThrough limit verbosity scope p m →
    ended (runUpTo limit verbosity scope whole m) = ended (runUpTo limit verbosity scope p m) ∧
    (leaves (runUpTo limit verbosity scope whole m)).output =
      (leaves (runUpTo limit verbosity scope p m)).output ∧
    Store.Same (leaves (runUpTo limit verbosity scope whole m)).store
      (leaves (runUpTo limit verbosity scope p m)).store

variable {p q q' : List Node} (m : Machine)

theorem exists_output_eq (program : List Node) : ∃ text,
    (leaves (runUpTo limit verbosity scope program m)).output = m.output ++ text := by
  have hrun : Lockstep (.upTo id) verbosity verbosity m m (Like (.upTo id))
      (runUpTo limit verbosity scope program) (runUpTo limit verbosity scope program) :=
    runUpTo_lockstep limit rfl rfl
  obtain ⟨text, htext, -⟩ := (hrun m m (.refl (.refl id m.store) fun _ => rfl)).tied.output
  exact ⟨text, htext⟩

variable {limit verbosity scope m}

/-- The heart of the matter, on two machines that differ in their traces. -/
theorem unnoted_endAlike_of_through {a b : Machine} (hab : Matched (.upTo Token.unplaced) a b)
    (hq : q'.map (Node.mapTokens Token.unplaced) = q.map (Node.mapTokens Token.unplaced))
    (hne : q' ≠ []) (h : RunsThrough limit verbosity scope p a) (trace : Array Note) :
    EndAlike (.upTo Token.unplaced) (unnoted limit verbosity scope (p ++ q') a)
      (unnoted limit verbosity scope q
        { leaves (unnoted limit verbosity scope p b) with trace := trace }) := by
  obtain ⟨v, n, hv, hsignal⟩ := h
  have hends := statements_endAlike limit verbosity scope rfl (p := p) rfl hab
  rw [hv] at hends
  generalize hr : statements verbosity (callUpTo verbosity limit) scope .null p b = r at hends
  cases hends with
  | @ok _ w _ n' _ hn =>
    rw [unnoted_congr (statements_of_through hv hsignal hne), unnoted_of_ok hr]
    exact unnoted_endAlike limit verbosity scope rfl hq (hn.retraced n.trace trace)

theorem endAlike_of_through (hq : q'.map (Node.mapTokens Token.unplaced) =
      q.map (Node.mapTokens Token.unplaced)) (hne : q' ≠ [])
    (h : RunsThrough limit verbosity scope p m) :
    EndAlike (.upTo Token.unplaced) (runUpTo limit verbosity scope (p ++ q') m)
      (runUpTo limit verbosity scope q (leaves (runUpTo limit verbosity scope p m))) := by
  obtain ⟨before, after, hwhole⟩ := exists_runUpTo_eq (p ++ q') m
  obtain ⟨before', after', hfirst⟩ := exists_runUpTo_eq p m
  rw [hwhole, hfirst, leaves_retraced]
  obtain ⟨before'', after'', hsecond⟩ := exists_runUpTo_eq q _
  rw [hsecond]
  have hthrough := h.of_matched rfl (Matched.of_traces Token.unplaced m m.trace before)
  exact (unnoted_endAlike_of_through (.of_traces _ m before before') hq hne hthrough
    before'').retraced _ _

theorem endAlike_of_stopped (q' : List Node) (h : ¬ RunsThrough limit verbosity scope p m) :
    EndAlike (.upTo id) (runUpTo limit verbosity scope (p ++ q') m)
      (runUpTo limit verbosity scope p m) := by
  obtain ⟨before, after, hwhole⟩ := exists_runUpTo_eq (p ++ q') m
  obtain ⟨before', after', hfirst⟩ := exists_runUpTo_eq p m
  have hstopped : ¬ RunsThrough limit verbosity scope p { m with trace := before } :=
    fun hthrough => h (hthrough.of_matched (L := .upTo id) rfl (.of_traces id m before m.trace))
  rw [hwhole, hfirst, unnoted_congr (statements_of_stopped hstopped)]
  exact (unnoted_endAlike limit verbosity scope rfl rfl
    (.of_traces id m before before')).retraced _ _

end

/-- Two sources that parse strictly, with a semicolon between them, parse to the statements of both,
and running these is running the one part and then the other. -/
theorem run_in_parts {first second : String} {p q : List Node} (hp : parseStrict first = .ok p)
    (hq : parseStrict second = .ok q) (hne : q ≠ []) :
    ∃ place : Position, parseStrict (first ++ ";" ++ second) =
        .ok (p ++ q.map (Node.mapTokens (Token.moved place))) ∧
      ∀ (limit verbosity : Nat) (scope : ScopeId) (m : Machine),
        RunInParts limit verbosity scope p q
          (p ++ q.map (Node.mapTokens (Token.moved place))) m := by
  refine ⟨_, parseStrict_join hp hq, fun limit verbosity scope m => ?_⟩
  generalize Position.behind ⟨1, 1⟩ (first ++ ";").toList = place
  have hplaces : (q.map (Node.mapTokens (Token.moved place))).map (Node.mapTokens Token.unplaced) =
      q.map (Node.mapTokens Token.unplaced) := by
    rw [List.map_map]
    exact List.map_congr_left fun n _ => Node.mapTokens_mapTokens _ _ n
  constructor
  · exact endAlike_of_through hplaces fun hnil => hne (List.map_eq_nil_iff.mp hnil)
  · obtain ⟨text, htext⟩ := exists_output_eq limit verbosity scope m p
    obtain ⟨text', htext'⟩ := exists_output_eq limit verbosity scope
      (leaves (runUpTo limit verbosity scope p m)) q
    exact ⟨text, text', htext, by rw [htext', htext]⟩
  · intro h
    have hends := endAlike_of_stopped (q.map (Node.mapTokens (Token.moved place))) h
    exact ⟨hends.ended_eq, hends.leaves.output, hends.leaves.store.same⟩

/-- The second part prints what the first one has bound, and is not run behind a `return`. -/
theorem run_in_parts_printed : ∃ p r q : List Node,
    parseStrict "let x = 2" = .ok p ∧ parseStrict "let x = 2; return x" = .ok r ∧
    parseStrict "puts(x)" = .ok q ∧ q ≠ [] ∧
    RunsThrough 5 0 Store.globalScope p .initial ∧
    ¬ RunsThrough 5 0 Store.globalScope r .initial ∧
    (∃ place, parseStrict ("let x = 2" ++ ";" ++ "puts(x)") =
        .ok (p ++ q.map (Node.mapTokens (Token.moved place))) ∧
      RunInParts 5 0 Store.globalScope p q
        (p ++ q.map (Node.mapTokens (Token.moved place))) .initial) ∧
    ∃ place, parseStrict ("let x = 2; return x" ++ ";" ++ "puts(x)") =
        .ok (r ++ q.map (Node.mapTokens (Token.moved place))) ∧
      RunInParts 5 0 Store.globalScope r q
        (r ++ q.map (Node.mapTokens (Token.moved place))) .initial := by
  obtain ⟨p, hp, hthrough⟩ : ∃ p, parseStrict "let x = 2" = .ok p ∧
      RunsThrough 5 0 Store.globalScope p .initial := ⟨_, rfl, _, _, rfl, rfl⟩
  obtain ⟨r, hr, n, hstopped⟩ : ∃ r, parseStrict "let x = 2; return x" = .ok r ∧
      ∃ n, statements 0 (callUpTo 0 5) Store.globalScope .null r .initial =
        .ok (.returned (.integer 2)) n := ⟨_, rfl, _, rfl⟩
  obtain ⟨q, hq, hne⟩ : ∃ q, parseStrict "puts(x)" = .ok q ∧ q ≠ [] :=
    ⟨_, rfl, List.cons_ne_nil _ _⟩
  obtain ⟨place, hwhole, hparts⟩ := run_in_parts hp hq hne
  obtain ⟨place', hwhole', hparts'⟩ := run_in_parts hr hq hne
  refine ⟨p, r, q, hp, hr, hq, hne, hthrough, ?_, ⟨place, hwhole, hparts 5 0 _ _⟩,
    place', hwhole', hparts' 5 0 _ _⟩
  rintro ⟨v, m, hv, hsignal⟩
  rw [hstopped] at hv
  cases hv
  cases hsignal

end Eval

end Simian
