import Simian.Value.Operators

/-!
# How comparisons agree

Two values are compared in one of three ways: integers by their order, booleans and `null` by
identity, and everything else not at all. That decides `==` and `!=` together, and `<` together with
`>` on the operands in the other order.
-/

namespace Simian.Value

set_option autoImplicit false

def BothIntegers (l r : Value) : Prop := l.type = .integer ∧ r.type = .integer

/-- Both are integers, or each of them is a boolean or `null`. -/
def Equatable (l r : Value) : Prop :=
  BothIntegers l r ∨
    (l.type = .boolean ∨ l.type = .null) ∧ (r.type = .boolean ∨ r.type = .null)

def mismatch (l : Value) (op : String) (r : Value) : Value :=
  error (.typeMismatch l.type op r.type)

/-- The laws of the comparisons on two values, and what the other operators make of these. -/
structure Coherent (l r : Value) : Prop where
  opposite : (∃ b, infixOp "==" l r = boolean b ∧ infixOp "!=" l r = boolean !b) ∨
    infixOp "==" l r = mismatch l "==" r ∧ infixOp "!=" l r = mismatch l "!=" r
  answered : (∃ b, infixOp "==" l r = boolean b) ↔ Equatable l r
  equality : Equatable l r → (infixOp "==" l r = boolean true ↔ l = r)
  symmetric : Equatable l r → infixOp "==" l r = infixOp "==" r l
  ordered : (∃ b, infixOp "<" l r = boolean b ∧ infixOp ">" r l = boolean b) ↔ BothIntegers l r
  unordered : ¬ BothIntegers l r →
    infixOp "<" l r = mismatch l "<" r ∧ infixOp ">" r l = mismatch r ">" l
  trichotomy : BothIntegers l r →
    ∃ op ∈ ["<", ">", "=="], ∀ op' ∈ ["<", ">", "=="], infixOp op' l r = boolean (op' == op)
  refused (op : String) : op ∉ ["<", ">", "==", "!="] → ¬ BothIntegers l r →
    ¬ (op = "+" ∧ l.type = .string ∧ r.type = .string) →
    infixOp op l r = if l.type = r.type then error (.unknownInfix l.type op r.type)
      else mismatch l op r

/-! ## Operands -/

variable {l r : Value}

theorem type_eq_integer_iff {v : Value} : v.type = .integer ↔ ∃ n, v = integer n := by
  cases v <;> simp [type]

theorem isConstant_iff {v : Value} :
    v.isConstant = true ↔ v.type = .boolean ∨ v.type = .null := by
  cases v <;> simp [type, isConstant]

theorem BothIntegers.exists_eq (h : BothIntegers l r) :
    ∃ a b, l = integer a ∧ r = integer b := by
  obtain ⟨a, rfl⟩ := type_eq_integer_iff.mp h.1
  obtain ⟨b, rfl⟩ := type_eq_integer_iff.mp h.2
  exact ⟨a, b, rfl, rfl⟩

theorem BothIntegers.symm (h : BothIntegers l r) : BothIntegers r l := ⟨h.2, h.1⟩

theorem Equatable.symm (h : Equatable l r) : Equatable r l := h.imp .symm And.symm

theorem not_bothIntegers_of_isConstant (hl : l.isConstant = true) : ¬ BothIntegers l r := by
  rintro ⟨h, -⟩
  rcases isConstant_iff.mp hl with hb | hn
  · cases hb.symm.trans h
  · cases hn.symm.trans h

theorem same_iff_of_isConstant (hl : l.isConstant = true) (hr : r.isConstant = true) :
    l.same r = true ↔ l = r := by
  cases l <;> cases hl <;> cases r <;> cases hr <;> simp [same]

/-! ## The three ways of comparing -/

theorem infixOp_of_isConstant {op : String} (hop : isEquality op = true)
    (hl : l.isConstant = true) (hr : r.isConstant = true) :
    infixOp op l r = boolean (l.same r == (op == "==")) := by
  cases l <;> cases hl <;> cases r <;> cases hr <;> simp [infixOp, hop, isConstant]

/-- An operator that is given neither two integers nor anything else that it takes. -/
theorem infixOp_of_not {op : String} (hi : ¬ BothIntegers l r)
    (hc : ¬ (isEquality op = true ∧ Equatable l r))
    (hs : ¬ (op = "+" ∧ l.type = .string ∧ r.type = .string)) :
    infixOp op l r = error (infixError op l r) := by
  unfold infixOp
  split
  · exact (hi ⟨rfl, rfl⟩).elim
  · exact if_neg fun hop => hs ⟨hop, rfl, rfl⟩
  · refine if_neg fun hall => hc ?_
    simp only [Bool.and_eq_true] at hall
    exact ⟨hall.1.1, .inr ⟨isConstant_iff.mp hall.1.2, isConstant_iff.mp hall.2⟩⟩

theorem infixError_of_isComparison {op : String} (h : isComparison op = true) :
    error (infixError op l r) = mismatch l op r := by
  rw [infixError, if_pos (.inr h), mismatch]

/-- What `==` and `!=` make of two values. -/
theorem equality_cases (l r : Value) :
    (Equatable l r ∧ ∃ b, (b = true ↔ l = r) ∧
      infixOp "==" l r = boolean b ∧ infixOp "!=" l r = boolean !b) ∨
    (¬ Equatable l r ∧
      infixOp "==" l r = mismatch l "==" r ∧ infixOp "!=" l r = mismatch l "!=" r) := by
  by_cases h : Equatable l r
  · refine .inl ⟨h, ?_⟩
    rcases h with hi | ⟨hl, hr⟩
    · obtain ⟨a, b, rfl, rfl⟩ := hi.exists_eq
      exact ⟨decide (a = b), by simp, by simp [infixOp, integerInfix],
        by simp [infixOp, integerInfix]⟩
    · rw [← isConstant_iff] at hl hr
      refine ⟨l.same r, same_iff_of_isConstant hl hr, ?_, ?_⟩
      · rw [infixOp_of_isConstant rfl hl hr]
        simp
      · rw [infixOp_of_isConstant rfl hl hr]
        simp
  · have hi : ¬ BothIntegers l r := fun hi => h (.inl hi)
    refine .inr ⟨h, ?_, ?_⟩
    · rw [infixOp_of_not hi (fun hc => h hc.2) (by simp), infixError_of_isComparison rfl]
    · rw [infixOp_of_not hi (fun hc => h hc.2) (by simp), infixError_of_isComparison rfl]

example (s : String) : infixOp "==" (string s) (string s) = mismatch (string s) "==" (string s) :=
  rfl

/-- Operands that have no order are refused in either one. -/
theorem infixOp_of_unordered {op : String} (hop : op = "<" ∨ op = ">")
    (h : ¬ BothIntegers l r) : infixOp op l r = mismatch l op r := by
  rcases hop with rfl | rfl
  · rw [infixOp_of_not h (by simp [isEquality]) (by simp), infixError_of_isComparison rfl]
  · rw [infixOp_of_not h (by simp [isEquality]) (by simp), infixError_of_isComparison rfl]

/-! ## The laws -/

theorem ordered_iff (l r : Value) :
    (∃ b, infixOp "<" l r = boolean b ∧ infixOp ">" r l = boolean b) ↔ BothIntegers l r := by
  refine ⟨?_, fun h => ?_⟩
  · rintro ⟨b, hb, -⟩
    by_cases h : BothIntegers l r
    · exact h
    · rw [infixOp_of_unordered (.inl rfl) h] at hb
      cases hb
  · obtain ⟨a, b, rfl, rfl⟩ := h.exists_eq
    exact ⟨decide (a < b), by simp [infixOp, integerInfix], by simp [infixOp, integerInfix]⟩

/-- Of two integers the first is smaller or greater or the same, and no two of these. -/
theorem trichotomy_integer (a b : Int) : ∃ op ∈ ["<", ">", "=="], ∀ op' ∈ ["<", ">", "=="],
    infixOp op' (integer a) (integer b) = boolean (op' == op) := by
  have hlt : infixOp "<" (integer a) (integer b) = boolean (decide (a < b)) := by
    simp [infixOp, integerInfix]
  have hgt : infixOp ">" (integer a) (integer b) = boolean (decide (b < a)) := by
    simp [infixOp, integerInfix]
  have heq : infixOp "==" (integer a) (integer b) = boolean (decide (a = b)) := by
    simp [infixOp, integerInfix]
  rcases Int.lt_trichotomy a b with h | h | h
  · have hne : a ≠ b := by omega
    exact ⟨"<", by simp, by simp [hlt, hgt, heq, h, hne, Int.le_of_lt h]⟩
  · subst h
    exact ⟨"==", by simp, by simp [hlt, hgt, heq]⟩
  · have hne : a ≠ b := by omega
    exact ⟨">", by simp, by simp [hlt, hgt, heq, h, hne, Int.le_of_lt h]⟩

theorem infixOp_refused {op : String} (hop : op ∉ ["<", ">", "==", "!="])
    (hi : ¬ BothIntegers l r) (hs : ¬ (op = "+" ∧ l.type = .string ∧ r.type = .string)) :
    infixOp op l r = if l.type = r.type then error (.unknownInfix l.type op r.type)
      else mismatch l op r := by
  have hcmp : isComparison op = false := by
    simpa [isComparison, isEquality, and_assoc] using hop
  have hne : isEquality op ≠ true := by
    intro he
    simp [isComparison, he] at hcmp
  rw [infixOp_of_not hi (fun hc => hne hc.1) hs, infixError, hcmp]
  by_cases ht : l.type = r.type
  · simp [ht]
  · simp [ht, mismatch]

theorem infixOp_coherent (l r : Value) : Coherent l r where
  opposite := by
    rcases equality_cases l r with ⟨-, b, -, heq, hne⟩ | ⟨-, hm⟩
    · exact .inl ⟨b, heq, hne⟩
    · exact .inr hm
  answered := by
    rcases equality_cases l r with ⟨h, b, -, heq, -⟩ | ⟨h, heq, -⟩
    · exact iff_of_true ⟨b, heq⟩ h
    · refine iff_of_false ?_ h
      rintro ⟨b, hb⟩
      cases heq.symm.trans hb
  equality h := by
    rcases equality_cases l r with ⟨-, b, hb, heq, -⟩ | ⟨hn, -⟩
    · rw [heq, boolean.injEq, hb]
    · exact (hn h).elim
  symmetric h := by
    rcases equality_cases l r with ⟨-, b, hb, heq, -⟩ | ⟨hn, -⟩
    · rcases equality_cases r l with ⟨-, c, hc, heq', -⟩ | ⟨hn, -⟩
      · rw [heq, heq', boolean.injEq, Bool.eq_iff_iff, hb, hc, eq_comm]
      · exact (hn h.symm).elim
    · exact (hn h).elim
  ordered := ordered_iff l r
  unordered h :=
    ⟨infixOp_of_unordered (.inl rfl) h, infixOp_of_unordered (.inr rfl) fun h' => h h'.symm⟩
  trichotomy h := by
    obtain ⟨a, b, rfl, rfl⟩ := h.exists_eq
    exact trichotomy_integer a b
  refused _ hop hi hs := infixOp_refused hop hi hs

end Simian.Value
