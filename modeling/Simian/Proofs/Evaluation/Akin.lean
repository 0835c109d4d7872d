import Simian.Proofs.Evaluation.Likeness
import Mathlib.Order.Basic

/-!
# Values and scopes that show the same

Two values are akin when they differ in nothing that a program can show: only in the tokens of
function bodies, in the numbers of functions and in which scopes their functions were made. Which
scopes of two stores stand for each other is a relation between their numbers. It holds of scopes
that bind the same names to values that are akin, and it need not hold of all. This is the coarsest
likeness of values; the pairs of scopes that are still to be made are no part of the relation.
-/

namespace Simian

open Value
set_option autoImplicit false

/-- Which scopes of one store stand for which of another. -/
abbrev Links := ScopeId → ScopeId → Prop

/-- Tokens and the numbers of functions do not count. -/
def Links.likeness (ρ : Links) : Likeness := ⟨fun _ => Node.blank, ρ, fun _ _ => True⟩

/-- The pairs of scopes and those of the scopes that two stores will make next. -/
def Links.withLater (ρ : Links) (s t : Store) : Links :=
  fun i j => ρ i j ∨ ∃ k, i = s.scopes.size + k ∧ j = t.scopes.size + k

theorem Links.le_withLater (ρ : Links) (s t : Store) : ρ ≤ ρ.withLater s t :=
  fun _ _ h => .inl h

namespace Value

inductive Akin (ρ : Links) : Value → Value → Prop where
  | integer (n : Int) : Akin ρ (.integer n) (.integer n)
  | boolean (b : Bool) : Akin ρ (.boolean b) (.boolean b)
  | null : Akin ρ .null .null
  | string (s : String) : Akin ρ (.string s) (.string s)
  | array {as bs : List Value} : List.Forall₂ (Akin ρ) as bs → Akin ρ (.array as) (.array bs)
  | function {k l : Nat} {ps : List String} {c d : Node} {i j : ScopeId} : c.shape = d.shape →
      ρ i j → Akin ρ (.function k ps c i) (.function l ps d j)
  | builtin (b : Builtin) : Akin ρ (.builtin b) (.builtin b)
  | returned {v w : Value} : Akin ρ v w → Akin ρ (.returned v) (.returned w)
  | error (e : RuntimeError) : Akin ρ (.error e) (.error e)

section
variable {ρ σ : Links}

mutual

theorem Akin.refl (hρ : ∀ i, ρ i i) : ∀ v : Value, Akin ρ v v
  | .integer n => .integer n
  | .boolean b => .boolean b
  | .null => .null
  | .string s => .string s
  | .array vs => .array (Akin.reflAll hρ vs)
  | .function _ _ _ i => .function rfl (hρ i)
  | .builtin b => .builtin b
  | .returned v => .returned (Akin.refl hρ v)
  | .error e => .error e

theorem Akin.reflAll (hρ : ∀ i, ρ i i) : ∀ vs : List Value, List.Forall₂ (Akin ρ) vs vs
  | [] => .nil
  | v :: vs => .cons (Akin.refl hρ v) (Akin.reflAll hρ vs)

end

mutual

theorem Akin.like (hle : ρ ≤ σ) : ∀ {v w : Value}, Akin ρ v w → Like σ.likeness v w
  | _, _, .integer n => .integer n
  | _, _, .boolean b => .boolean b
  | _, _, .null => .null
  | _, _, .string s => .string s
  | _, _, .array hs => .array (Akin.likeAll hle hs)
  | _, _, .function hc hl => .function trivial hc (hle _ _ hl)
  | _, _, .builtin b => .builtin b
  | _, _, .returned h => .returned (Akin.like hle h)
  | _, _, .error e => .error e

theorem Akin.likeAll (hle : ρ ≤ σ) : ∀ {vs ws : List Value}, List.Forall₂ (Akin ρ) vs ws →
    List.Forall₂ (Like σ.likeness) vs ws
  | _, _, .nil => .nil
  | _, _, .cons h hs => .cons (Akin.like hle h) (Akin.likeAll hle hs)

end

mutual

theorem Like.akin : ∀ {v w : Value}, Like ρ.likeness v w → Akin ρ v w
  | _, _, .integer n => .integer n
  | _, _, .boolean b => .boolean b
  | _, _, .null => .null
  | _, _, .string s => .string s
  | _, _, .array hs => .array (Like.akinAll hs)
  | _, _, .function _ hc hs => .function hc hs
  | _, _, .builtin b => .builtin b
  | _, _, .returned h => .returned (Like.akin h)
  | _, _, .error e => .error e

theorem Like.akinAll : ∀ {vs ws : List Value}, List.Forall₂ (Like ρ.likeness) vs ws →
    List.Forall₂ (Akin ρ) vs ws
  | _, _, .nil => .nil
  | _, _, .cons h hs => .cons (Like.akin h) (Like.akinAll hs)

end

end

end Value

/-! ## Stores -/

namespace Store

/-- Scopes that are linked bind the same names to values that are alike and are enclosed by linked
scopes. A scope that is still to be made is linked at most to the one that is made as the same. -/
structure Linked (ρ : Links) (s t : Store) : Prop where
  unique {i i' j j' : ScopeId} : ρ i j → ρ i' j' → (i = i' ↔ j = j')
  later {i j : Nat} : ρ i j → ∀ k, i = s.scopes.size + k ↔ j = t.scopes.size + k
  own {i j : ScopeId} : ρ i j → ∀ name, Option.Rel (Akin ρ) (s.own? i name) (t.own? j name)
  outer {i j : ScopeId} : ρ i j → List.Forall₂ ρ (s.scope i).outer (t.scope j).outer

variable {ρ : Links} {s t : Store}

/-- Every store is linked to itself. -/
theorem Linked.refl (s : Store) : Linked Eq s s where
  unique := by
    rintro i i' _ _ rfl rfl
    exact Iff.rfl
  later := by
    rintro i _ rfl k
    exact Iff.rfl
  own := by
    rintro i _ rfl name
    cases s.own? i name with
    | none => exact .none
    | some v => exact .some (Akin.refl (fun _ => rfl) v)
  outer := by
    rintro i _ rfl
    exact List.forall₂_eq_eq_eq ▸ rfl

theorem Linked.joined (h : Linked ρ s t) : Joined (ρ.withLater s t).likeness s t where
  unique := by
    rintro i i' j j' (hl | ⟨k, rfl, rfl⟩) (hl' | ⟨k', rfl, rfl⟩)
    · exact h.unique hl hl'
    · exact h.later hl k'
    · rw [eq_comm, h.later hl' k, eq_comm]
    · rw [Nat.add_left_cancel_iff, Nat.add_left_cancel_iff]
  later k := .inr ⟨k, rfl, rfl⟩
  own := by
    rintro i j (hl | ⟨k, rfl, rfl⟩) name
    · have hown := h.own hl name
      generalize s.own? i name = x, t.own? j name = y at hown
      cases hown with
      | none => exact .none
      | some hv => exact .some (hv.like (ρ.le_withLater s t))
    · rw [own?_of_le (Nat.le_add_right _ _), own?_of_le (Nat.le_add_right _ _)]
      exact .none
  outer := by
    rintro i j (hl | ⟨k, rfl, rfl⟩)
    · exact (h.outer hl).imp (ρ.le_withLater s t)
    · rw [scope_of_le (Nat.le_add_right _ _), scope_of_le (Nat.le_add_right _ _)]
      exact .nil

theorem Joined.linked (h : Joined ρ.likeness s t) : Linked ρ s t where
  unique := h.unique
  later hl := h.eq_size_iff hl
  own := by
    intro i j hl name
    have hown := h.own hl name
    generalize s.own? i name = x, t.own? j name = y at hown
    cases hown with
    | none => exact .none
    | some hv => exact .some hv.akin
  outer := h.outer

end Store

end Simian
