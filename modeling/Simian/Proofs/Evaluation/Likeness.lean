import Simian.Machine
import Simian.Proofs.Shape
import Mathlib.Data.List.Forall2

/-!
# Values and scopes that are alike

Values of two runs are alike when they differ only in what a program cannot tell apart: in the
tokens of function bodies, in the numbers of functions and in which scopes their functions were
made. How far they may differ in these is a `Likeness`. Two stores are joined by it when the scopes
that stand for each other bind the same names to values that are alike; this need not hold of all
scopes, but it holds of those that are still to be made.
-/

namespace Simian

open Value
set_option autoImplicit false

structure Likeness where
  /-- Tokens that this makes equal need not be told apart. -/
  tokens : Token → Token
  /-- Which scopes of one store stand for which of the other one. -/
  scope : ScopeId → ScopeId → Prop
  /-- Which functions of one run stand for which of the other one. -/
  number : Nat → Nat → Prop

namespace Value

inductive Like (L : Likeness) : Value → Value → Prop where
  | integer (n : Int) : Like L (.integer n) (.integer n)
  | boolean (b : Bool) : Like L (.boolean b) (.boolean b)
  | null : Like L .null .null
  | string (s : String) : Like L (.string s) (.string s)
  | array {vs ws : List Value} : List.Forall₂ (Like L) vs ws → Like L (.array vs) (.array ws)
  | function {k l : Nat} {ps : List String} {c d : Node} {i j : ScopeId} : L.number k l →
      c.mapTokens L.tokens = d.mapTokens L.tokens → L.scope i j →
      Like L (.function k ps c i) (.function l ps d j)
  | builtin (b : Builtin) : Like L (.builtin b) (.builtin b)
  | returned {v w : Value} : Like L v w → Like L (.returned v) (.returned w)
  | error (e : RuntimeError) : Like L (.error e) (.error e)

/-- A function that was made in scope `i` is the value or an element of it, at any depth. -/
inductive Captures (i : ScopeId) : Value → Prop where
  | function {k : Nat} {ps : List String} {c : Node} : Captures i (.function k ps c i)
  | element {v : Value} {vs : List Value} : v ∈ vs → Captures i v → Captures i (.array vs)
  | returned {v : Value} : Captures i v → Captures i (.returned v)

section
variable {L : Likeness} {v w v' w' : Value} {vs ws : List Value}

mutual

/-- A value is like itself if the scopes that it captures stand for themselves. -/
theorem Like.refl (hn : ∀ k, L.number k k) :
    ∀ v : Value, (∀ i, v.Captures i → L.scope i i) → Like L v v
  | .integer n, _ => .integer n
  | .boolean b, _ => .boolean b
  | .null, _ => .null
  | .string s, _ => .string s
  | .array vs, h => .array (Like.reflAll hn vs fun i _ hv hc => h i (.element hv hc))
  | .function k _ _ i, h => .function (hn k) rfl (h i .function)
  | .builtin b, _ => .builtin b
  | .returned v, h => .returned (Like.refl hn v fun i hc => h i (.returned hc))
  | .error e, _ => .error e

theorem Like.reflAll (hn : ∀ k, L.number k k) : ∀ vs : List Value,
    (∀ i, ∀ v ∈ vs, v.Captures i → L.scope i i) → List.Forall₂ (Like L) vs vs
  | [], _ => .nil
  | v :: vs, h => .cons (Like.refl hn v fun i hc => h i v List.mem_cons_self hc)
    (Like.reflAll hn vs fun i u hu hc => h i u (List.mem_cons_of_mem v hu) hc)

end

/-! ## What is shown -/

mutual

/-- What is alike is shown by the same text. -/
theorem Like.inspect_eq : ∀ {v w : Value}, Like L v w → v.inspect = w.inspect
  | _, _, .integer _ => rfl
  | _, _, .boolean _ => rfl
  | _, _, .null => rfl
  | _, _, .string _ => rfl
  | _, _, .array hs =>
    congrArg (fun texts => "[" ++ commaSeparated texts ++ "]") (Like.inspectAll_eq hs)
  | _, _, .function _ hc _ =>
    congrArg (fun text => "fn(" ++ commaSeparated _ ++ ") " ++ text)
      (Node.render_eq_of_mapTokens hc)
  | _, _, .builtin _ => rfl
  | _, _, .returned h => (Like.inspect_eq h :)
  | _, _, .error _ => rfl

theorem Like.inspectAll_eq : ∀ {vs ws : List Value}, List.Forall₂ (Like L) vs ws →
    inspectAll vs = inspectAll ws
  | _, _, .nil => rfl
  | _, _, .cons h hs => congrArg₂ List.cons (Like.inspect_eq h) (Like.inspectAll_eq hs)

end

theorem Like.type_eq (h : Like L v w) : v.type = w.type := by cases h <;> rfl

theorem Like.isSignal_eq (h : Like L v w) : v.isSignal = w.isSignal := by cases h <;> rfl

theorem Like.isTruthy_eq (h : Like L v w) : v.isTruthy = w.isTruthy := by cases h <;> rfl

theorem Like.isConstant_eq (h : Like L v w) : v.isConstant = w.isConstant := by cases h <;> rfl

theorem Like.eq_of_isConstant (h : Like L v w) (hc : v.isConstant = true) : v = w := by
  cases h with
  | boolean b => rfl
  | null => rfl
  | _ => cases hc

theorem Like.unwrapped (h : Like L v w) : Like L v.unwrapped w.unwrapped := by
  cases h with
  | returned h => exact h
  | integer n => exact .integer n
  | boolean b => exact .boolean b
  | null => exact .null
  | string s => exact .string s
  | array hs => exact .array hs
  | function hk hc hs => exact .function hk hc hs
  | builtin b => exact .builtin b
  | error e => exact .error e

/-! ## Operators -/

theorem Like.prefixOp (h : Like L v w) (op : String) :
    Like L (v.prefixOp op) (w.prefixOp op) := by
  unfold Value.prefixOp
  split
  · rw [h.isTruthy_eq]
    exact .boolean _
  · split
    · cases h with
      | integer n => exact .integer _
      | _ => exact .error _
    · rw [h.type_eq]
      exact .error _

theorem like_integerInfix (op : String) (a b : Int) :
    Like L (integerInfix op a b) (integerInfix op a b) := by
  unfold integerInfix
  repeat' split
  all_goals constructor

theorem infixError_eq (op : String) (h : Like L v w) (h' : Like L v' w') :
    infixError op v v' = infixError op w w' := by
  rw [infixError, infixError, h.type_eq, h'.type_eq]

/-- What an operator gives for operands that are neither two integers nor two strings. -/
theorem infixOp_of_mixed (op : String) (hi : ∀ a b, v = integer a → v' = integer b → False)
    (hs : ∀ a b, v = string a → v' = string b → False) :
    Value.infixOp op v v' = if isEquality op && v.isConstant && v'.isConstant then
      boolean (v.same v' == (op == "==")) else error (infixError op v v') := by
  unfold Value.infixOp
  split
  · exact (hi _ _ rfl rfl).elim
  · exact (hs _ _ rfl rfl).elim
  · rfl

theorem Like.infixOp (op : String) (h : Like L v w) (h' : Like L v' w') :
    Like L (Value.infixOp op v v') (Value.infixOp op w w') := by
  by_cases hi : ∃ a b, v = .integer a ∧ v' = .integer b
  · obtain ⟨a, b, rfl, rfl⟩ := hi
    cases h
    cases h'
    exact like_integerInfix op a b
  by_cases hs : ∃ a b, v = .string a ∧ v' = .string b
  · obtain ⟨a, b, rfl, rfl⟩ := hs
    cases h
    cases h'
    rw [Value.infixOp]
    split
    · exact .string _
    · exact .error _
  have hi' (a b : Int) (hw : w = .integer a) (hw' : w' = .integer b) : False := by
    subst hw hw'
    cases h
    cases h'
    exact hi ⟨a, b, rfl, rfl⟩
  have hs' (a b : String) (hw : w = .string a) (hw' : w' = .string b) : False := by
    subst hw hw'
    cases h
    cases h'
    exact hs ⟨a, b, rfl, rfl⟩
  rw [infixOp_of_mixed op (fun a b ha hb => hi ⟨a, b, ha, hb⟩) fun a b ha hb => hs ⟨a, b, ha, hb⟩,
    infixOp_of_mixed op hi' hs', ← h.isConstant_eq, ← h'.isConstant_eq, ← infixError_eq op h h']
  split
  · next hc =>
    simp only [Bool.and_eq_true] at hc
    rw [h.eq_of_isConstant hc.1.2, h'.eq_of_isConstant hc.2]
    exact .boolean _
  · exact .error _

theorem Like.getD (h : List.Forall₂ (Like L) vs ws) (n : Nat) :
    Like L (vs.getD n .null) (ws.getD n .null) := by
  induction h generalizing n with
  | nil => exact .null
  | cons h _ ih =>
    cases n with
    | zero => exact h
    | succ n => exact ih n

theorem Like.elementAt (h : List.Forall₂ (Like L) vs ws) (i : Int) :
    Like L (elementAt vs i) (elementAt ws i) := by
  unfold Value.elementAt
  split
  · exact .null
  · exact getD h _

/-! ## Built-in functions -/

theorem Like.head (h : List.Forall₂ (Like L) vs ws) :
    Like L (vs.head?.getD .null) (ws.head?.getD .null) := by
  cases h with
  | nil => exact .null
  | cons h _ => exact h

theorem Like.last (h : List.Forall₂ (Like L) vs ws) :
    Like L (vs.getLast?.getD .null) (ws.getLast?.getD .null) := by
  rw [List.getLast?_eq_head?_reverse, List.getLast?_eq_head?_reverse]
  exact head (List.forall₂_reverse_iff.mpr h)

theorem Like.rest (h : List.Forall₂ (Like L) vs ws) :
    Like L (if vs.isEmpty then .null else .array vs.tail)
      (if ws.isEmpty then .null else .array ws.tail) := by
  cases h with
  | nil => exact .null
  | cons _ hs => exact .array hs

theorem Like.length (h : Like L v w) : Like L (Builtin.length v) (Builtin.length w) := by
  cases h with
  | string s => exact .integer _
  | array hs =>
    rw [Builtin.length, Builtin.length, hs.length_eq]
    exact .integer _
  | _ => exact .error _

theorem Like.onArray (b : Builtin) {f g : List Value → Value} (h : Like L v w)
    (hf : ∀ es fs, List.Forall₂ (Like L) es fs → Like L (f es) (g fs)) :
    Like L (b.onArray f v) (b.onArray g w) := by
  cases h with
  | array hs => exact hf _ _ hs
  | _ => exact .error _

theorem Like.result (b : Builtin) (h : List.Forall₂ (Like L) vs ws) :
    Like L (b.result vs) (b.result ws) := by
  cases h with
  | nil => cases b <;> constructor
  | cons h hs =>
    cases hs with
    | nil =>
      cases b with
      | len => exact h.length
      | first => exact h.onArray .first fun _ _ => head
      | last => exact h.onArray .last fun _ _ => last
      | rest => exact h.onArray .rest fun _ _ => rest
      | push => exact .error _
      | puts => exact .null
    | cons h' hs' =>
      cases hs' with
      | nil =>
        cases b with
        | push =>
          exact h.onArray .push fun es fs hes =>
            .array (List.rel_append hes (.cons h' .nil))
        | puts => exact .null
        | _ => exact .error _
      | cons _ hs'' =>
        have hlen := hs''.length_eq
        cases b <;> simp only [Builtin.result, List.length_cons, hlen] <;> constructor

theorem Like.printed_eq (b : Builtin) (h : List.Forall₂ (Like L) vs ws) :
    b.printed vs = b.printed ws := by
  have htexts : vs.map inspect = ws.map inspect := by
    rw [← inspectAll_eq_map, ← inspectAll_eq_map, inspectAll_eq h]
  have hlines (us : List Value) :
      (us.map fun u => u.inspect ++ "\n") = (us.map inspect).map (· ++ "\n") := by
    rw [List.map_map]
    rfl
  cases b with
  | puts => rw [Builtin.printed, Builtin.printed, hlines, hlines, htexts]
  | _ => rfl

end

end Value

/-! ## Stores -/

namespace Store

/-- Scopes that stand for each other bind the same names to values that are alike and are enclosed
by scopes that stand for each other; so do the scopes that will be made next. -/
structure Joined (L : Likeness) (s t : Store) : Prop where
  unique {i i' j j' : ScopeId} : L.scope i j → L.scope i' j' → (i = i' ↔ j = j')
  later (k : Nat) : L.scope (s.scopes.size + k) (t.scopes.size + k)
  own {i j : ScopeId} : L.scope i j → ∀ name, Option.Rel (Like L) (s.own? i name) (t.own? j name)
  outer {i j : ScopeId} : L.scope i j →
    List.Forall₂ L.scope (s.scope i).outer (t.scope j).outer

variable {L : Likeness} {s t : Store} {i j : Nat}

theorem Joined.eq_size_iff (h : Joined L s t) (hs : L.scope i j) (k : Nat) :
    i = s.scopes.size + k ↔ j = t.scopes.size + k := h.unique hs (h.later k)

theorem Joined.lt_iff (h : Joined L s t) (hs : L.scope i j) :
    i < s.scopes.size ↔ j < t.scopes.size := by
  have hi := h.eq_size_iff hs (i - s.scopes.size)
  have hj := h.eq_size_iff hs (j - t.scopes.size)
  omega

theorem Joined.chain (h : Joined L s t) (hs : L.scope i j) :
    List.Forall₂ L.scope (s.chain i) (t.chain j) := .cons hs (h.outer hs)

theorem Joined.find (h : Joined L s t) (name : String) {is js : List ScopeId}
    (hs : List.Forall₂ L.scope is js) : Option.Rel (Like L) (is.findSome? fun i => s.own? i name)
      (js.findSome? fun j => t.own? j name) := by
  induction hs with
  | nil => exact .none
  | @cons i j _ _ hs _ ih =>
    rw [List.findSome?_cons, List.findSome?_cons]
    have hown := h.own hs name
    generalize s.own? i name = x, t.own? j name = y at hown
    cases hown with
    | none => exact ih
    | some hv => exact .some hv

theorem Joined.get? (h : Joined L s t) (hs : L.scope i j) (name : String) :
    Option.Rel (Like L) (s.get? i name) (t.get? j name) := h.find name (h.chain hs)

theorem Joined.set (h : Joined L s t) (hs : L.scope i j) (name : String) {v w : Value}
    (hv : Like L v w) : Joined L (s.set i name v) (t.set j name w) where
  unique := h.unique
  later k := by
    rw [size_set, size_set]
    exact h.later k
  own := by
    intro i' j' hs' other
    -- The binding is met through both names or through neither: scopes are paired one to one.
    rw [own?_set, own?_set]
    have hiff : (i' = i ∧ other = name ∧ i < s.scopes.size) ↔
        (j' = j ∧ other = name ∧ j < t.scopes.size) := by
      rw [h.unique hs' hs, h.lt_iff hs]
    simp only [hiff]
    split
    · exact .some hv
    · exact h.own hs' other
  outer hs' := by
    rw [outer_set, outer_set]
    exact h.outer hs'

theorem Joined.addScope (h : Joined L s t) {is js : List ScopeId}
    (ho : List.Forall₂ L.scope is js) : Joined L (s.addScope is) (t.addScope js) where
  unique := h.unique
  later k := by
    rw [size_addScope, size_addScope, Nat.add_assoc, Nat.add_assoc, Nat.add_comm 1 k]
    exact h.later (k + 1)
  own := by
    intro i j hs name
    rw [own?_addScope, own?_addScope]
    exact h.own hs name
  outer := by
    intro i j hs
    have hiff : i = s.scopes.size ↔ j = t.scopes.size := h.eq_size_iff hs 0
    rw [scope_addScope, scope_addScope]
    simp only [hiff]
    split
    · exact ho
    · exact h.outer hs

end Store

end Simian
