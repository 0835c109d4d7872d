import Simian.Eval
import Simian.Proofs.Steps

/-!
# Arithmetic on words

Expressions of numerals, negations and the four operators of arithmetic. Evaluation works with
integers of any size and reduces each result; it agrees with arithmetic on words of 64 bits, read
as signed integers. Without a division the result is that of exact arithmetic, reduced once.
-/

namespace Simian.Arithmetic

open Eval
set_option autoImplicit false

abbrev Word := BitVec 64

inductive Operator where
  | plus | minus | times | divide
  deriving DecidableEq, Repr

namespace Operator

def text : Operator → String
  | plus => "+"
  | minus => "-"
  | times => "*"
  | divide => "/"

/-- The result on words; division truncates toward zero and has none when the divisor is zero. -/
def onWords : Operator → Word → Word → Option Word
  | plus, a, b => some (a + b)
  | minus, a, b => some (a - b)
  | times, a, b => some (a * b)
  | divide, a, b => if b = 0 then none else some (a.sdiv b)

/-- The exact result. -/
def onIntegers : Operator → Int → Int → Int
  | plus, a, b => a + b
  | minus, a, b => a - b
  | times, a, b => a * b
  | divide, a, b => a.tdiv b

end Operator

/-- Expressions of arithmetic, each part with the token that it keeps. -/
inductive Expr where
  | numeral (token : Token) (n : Nat) (inRange : (n : Int) ≤ Int64.max)
  | negation (token : Token) (e : Expr)
  | operation (token : Token) (op : Operator) (left right : Expr)

namespace Expr

def node : Expr → Node
  | numeral t n _ => .integer t n
  | negation t e => .prefixOp t "-" e.node
  | operation t op l r => .infixOp t op.text l.node r.node

/-- The word that an expression stands for, evaluated from left to right; none when the evaluation
meets a division by zero. -/
def word? : Expr → Option Word
  | numeral _ n _ => some (BitVec.ofNat 64 n)
  | negation _ e => do
    let w ← e.word?
    return -w
  | operation _ op l r => do
    let a ← l.word?
    let b ← r.word?
    op.onWords a b

/-- The evaluation from left to right meets a division whose divisor is zero. -/
inductive DividesByZero : Expr → Prop where
  | negation {t : Token} {e : Expr} : DividesByZero e → DividesByZero (.negation t e)
  | left {t : Token} {op : Operator} {l r : Expr} : DividesByZero l →
      DividesByZero (.operation t op l r)
  | right {t : Token} {op : Operator} {l r : Expr} {a : Word} : l.word? = some a →
      DividesByZero r → DividesByZero (.operation t op l r)
  | here {t : Token} {l r : Expr} {a : Word} : l.word? = some a → r.word? = some 0 →
      DividesByZero (.operation t .divide l r)

def exact : Expr → Int
  | numeral _ n _ => n
  | negation _ e => -e.exact
  | operation _ op l r => op.onIntegers l.exact r.exact

def isDivisionFree : Expr → Bool
  | numeral .. => true
  | negation _ e => e.isDivisionFree
  | operation _ op l r => op != .divide && l.isDivisionFree && r.isDivisionFree

end Expr

/-- A word as a value, and a division by zero as its error. -/
def result : Option Word → Value
  | some w => .integer w.toInt
  | none => .error .divisionByZero

/-! ## Single operations -/

theorem toInt_ofInt (n : Int) : (BitVec.ofInt 64 n).toInt = Int64.wrap n := BitVec.toInt_ofInt n

theorem toInt_ofNat {n : Nat} (h : (n : Int) ≤ Int64.max) : (BitVec.ofNat 64 n).toInt = n := by
  have hmin : Int64.min ≤ (n : Int) := Int.le_trans (by decide) (Int.natCast_nonneg n)
  rw [← BitVec.ofInt_natCast, toInt_ofInt, Int64.wrap_eq_self hmin h]

theorem toInt_eq_zero_iff (w : Word) : w.toInt = 0 ↔ w = 0 := by
  rw [← BitVec.toInt_inj]
  rfl

theorem prefixOp_word (w : Word) :
    Value.prefixOp "-" (.integer w.toInt) = .integer (-w).toInt := by
  rw [BitVec.toInt_neg]
  rfl

theorem divide?_word (a b : Word) :
    Int64.divide? a.toInt b.toInt = (Operator.divide.onWords a b).map BitVec.toInt := by
  by_cases hb : b = 0
  · subst hb
    rfl
  · have hne : b.toInt ≠ 0 := fun h => hb ((toInt_eq_zero_iff b).mp h)
    rw [Int64.divide?_of_ne_zero _ hne, Operator.onWords, if_neg hb, Option.map_some,
      BitVec.toInt_sdiv]
    rfl

example : Operator.divide.onWords (BitVec.intMin 64) (-1) = some (BitVec.intMin 64) := by decide

theorem infixOp_word (op : Operator) (a b : Word) :
    Value.infixOp op.text (.integer a.toInt) (.integer b.toInt) = result (op.onWords a b) := by
  change Value.integerInfix op.text a.toInt b.toInt = _
  cases op with
  | plus => exact congrArg Value.integer (BitVec.toInt_add a b).symm
  | minus => exact congrArg Value.integer BitVec.toInt_sub.symm
  | times => exact congrArg Value.integer (BitVec.toInt_mul a b).symm
  | divide =>
    have hdiv := divide?_word a b
    cases h : Operator.divide.onWords a b with
    | none =>
      rw [h, Option.map_none] at hdiv
      simp [Operator.text, Value.integerInfix, hdiv, result]
    | some w =>
      rw [h, Option.map_some] at hdiv
      simp [Operator.text, Value.integerInfix, hdiv, result]

theorem ofInt_sub (a b : Int) :
    BitVec.ofInt 64 (a - b) = BitVec.ofInt 64 a - BitVec.ofInt 64 b := by
  rw [Int.sub_eq_add_neg, BitVec.ofInt_add, BitVec.ofInt_neg, BitVec.sub_eq_add_neg]

theorem onWords_ofInt {op : Operator} (h : op ≠ .divide) (a b : Int) :
    op.onWords (BitVec.ofInt 64 a) (BitVec.ofInt 64 b) =
      some (BitVec.ofInt 64 (op.onIntegers a b)) := by
  cases op with
  | plus => exact congrArg some (BitVec.ofInt_add a b).symm
  | minus => exact congrArg some (ofInt_sub a b).symm
  | times => exact congrArg some (BitVec.ofInt_mul a b).symm
  | divide => exact absurd rfl h

/-! ## Expressions -/

section
variable {verbosity : Nat} {call : Caller} {scope : ScopeId}

/-- The part of an expression that is evaluated behind another one. -/
theorem unlessSignal_result (o : Option Word) (k : EvalM Value) (m : Machine) :
    unlessSignal (result o) k m = if o.isSome then k m else .ok (result o) m := by
  cases o <;> rfl

theorem node_word (e : Expr) (m : Machine) :
    Eval.node verbosity call scope e.node m = .ok (result e.word?) m := by
  induction e with
  | numeral t n h =>
    rw [Expr.node, Eval.node, Expr.word?, result, toInt_ofNat h]
    rfl
  | negation t e ih =>
    rw [Expr.node, Eval.node, bind_of_ok ih, unlessSignal_result, Expr.word?]
    cases he : e.word? with
    | none => rfl
    | some w => exact congrArg (EStateM.Result.ok · m) (prefixOp_word w)
  | operation t op l r ihl ihr =>
    rw [Expr.node, Eval.node, bind_of_ok ihl, unlessSignal_result, Expr.word?]
    cases hl : l.word? with
    | none => rfl
    | some a =>
      change (Eval.node verbosity call scope r.node >>= _) m = _
      rw [bind_of_ok ihr, unlessSignal_result]
      cases hr : r.word? with
      | none => rfl
      | some b => exact congrArg (EStateM.Result.ok · m) (infixOp_word op a b)

end

theorem onWords_eq_none_iff {op : Operator} {a b : Word} :
    op.onWords a b = none ↔ op = .divide ∧ b = 0 := by
  cases op <;> simp [Operator.onWords]

theorem word?_eq_none_iff (e : Expr) : e.word? = none ↔ e.DividesByZero := by
  induction e with
  | numeral t n h =>
    constructor
    · exact fun hw => nomatch hw
    · exact fun hd => nomatch hd
  | negation t e ih =>
    rw [Expr.word?]
    constructor
    · intro hw
      cases he : e.word? with
      | none => exact .negation (ih.mp he)
      | some w => simp [he] at hw
    · rintro (hd : Expr.DividesByZero (.negation t e))
      cases hd with
      | negation hd => rw [ih.mpr hd]; rfl
  | operation t op l r ihl ihr =>
    rw [Expr.word?]
    constructor
    · intro hw
      cases hl : l.word? with
      | none => exact .left (ihl.mp hl)
      | some a =>
        cases hr : r.word? with
        | none => exact .right hl (ihr.mp hr)
        | some b =>
          simp only [hl, hr] at hw
          obtain ⟨rfl, rfl⟩ := onWords_eq_none_iff.mp hw
          exact .here hl hr
    · intro hd
      cases hd with
      | left hd => rw [ihl.mpr hd]; rfl
      | right hl hd => rw [hl, ihr.mpr hd]; rfl
      | here hl hr => rw [hl, hr]; rfl

theorem word?_of_isDivisionFree {e : Expr} (h : e.isDivisionFree = true) :
    e.word? = some (BitVec.ofInt 64 e.exact) := by
  induction e with
  | numeral t n hn => exact congrArg some (BitVec.ofInt_natCast ..).symm
  | negation t e ih =>
    rw [Expr.word?, ih h, Expr.exact, BitVec.ofInt_neg]
    rfl
  | operation t op l r ihl ihr =>
    simp only [Expr.isDivisionFree, Bool.and_eq_true, bne_iff_ne] at h
    obtain ⟨⟨hop, hl⟩, hr⟩ := h
    rw [Expr.word?, ihl hl, ihr hr]
    exact onWords_ofInt hop _ _

/-- Arithmetic evaluates as it does on words, and fails where a divisor is zero. Without divisions
the result is the integer of the 64-bit range that is congruent to the exact result. -/
theorem evaluates_on_words (e : Expr) :
    (∀ (verbosity : Nat) (call : Caller) (scope : ScopeId) (m : Machine),
      Eval.node verbosity call scope e.node m = .ok (result e.word?) m) ∧
    (e.word? = none ↔ e.DividesByZero) ∧
    (e.isDivisionFree = true → ∃ n : Int, result e.word? = .integer n ∧
      Int64.min ≤ n ∧ n ≤ Int64.max ∧ n % Int64.modulus = e.exact % Int64.modulus) := by
  refine ⟨fun _ _ _ m => node_word e m, word?_eq_none_iff e, fun h => ?_⟩
  refine ⟨Int64.wrap e.exact, ?_, (Int64.wrap_bounds _).1, (Int64.wrap_bounds _).2, ?_⟩
  · rw [word?_of_isDivisionFree h, result, toInt_ofInt]
  · exact Int.bmod_emod

/-- The greatest integer plus one, less one: the overflow cancels. -/
theorem evaluates_on_words_overflow :
    let t : Token := ⟨.int, "1", ⟨1, 1⟩⟩
    let one : Expr := .numeral t 1 (by decide)
    let top : Expr := .numeral t 9223372036854775807 (by decide)
    let e : Expr := .operation t .minus (.operation t .plus top one) one
    e.isDivisionFree = true ∧ result e.word? = .integer Int64.max := by
  intro t one top e
  obtain ⟨n, hn, hl, hu, hmod⟩ := (evaluates_on_words e).2.2 rfl
  have hexact : e.exact = Int64.max := rfl
  refine ⟨rfl, hn.trans (congrArg Value.integer ?_)⟩
  rw [hexact] at hmod
  simp only [Int64.min, Int64.max, Int64.modulus] at hl hu hmod ⊢
  omega

end Simian.Arithmetic
