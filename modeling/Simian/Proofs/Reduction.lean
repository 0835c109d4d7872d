import Mathlib.Data.Int.Bitwise
import Mathlib.Data.Int.ModEq
import Simian.Int64

/-!
# Exactness of reduction and division

An integer of any size is reduced by its 64 lowest bits, read as a signed number. That is the only
integer of the range that is congruent to it, so sums, differences and products can be formed of
what is reduced already. A quotient is formed of the magnitudes and given its sign afterwards; it is
the quotient of the division that rounds toward zero, and of two integers of the range it is in the
range but for one pair.
-/

namespace Simian.Int64

set_option autoImplicit false

/-- The 64 lowest bits of an integer in two's complement, as a number without a sign. -/
def lowBits (n : Int) : Int := n.land (2 ^ 64 - 1 : Nat)

/-- The 64 lowest bits, the highest of them as the sign. -/
def signedBits (n : Int) : Int := if max < lowBits n then lowBits n - 2 ^ 64 else lowBits n

/-- The quotient of the magnitudes, negative where one operand is and the other is not. -/
def signedQuotient (a b : Int) : Int :=
  if (a < 0 ↔ b < 0) then (a.natAbs / b.natAbs : Nat) else -(a.natAbs / b.natAbs : Nat)

/-- `a` divided by `b` gives `q` and leaves `r`, which is on the same side of zero as `a`. -/
structure IsDivision (a b q r : Int) : Prop where
  split : a = q * b + r
  small : r.natAbs < b.natAbs
  sign : r = 0 ∨ r.sign = a.sign

/-! ## Reduction -/

theorem ldiff_eq_sub (m : Nat) : Nat.ldiff (2 ^ 64 - 1) m = 2 ^ 64 - (m % 2 ^ 64 + 1) := by
  apply Nat.eq_of_testBit_eq
  intro i
  have hlt : m % 2 ^ 64 < 2 ^ 64 := Nat.mod_lt m (by decide)
  rw [Nat.testBit_ldiff, Nat.testBit_two_pow_sub_one, Nat.testBit_two_pow_sub_succ hlt,
    Nat.testBit_mod_two_pow]
  by_cases hi : i < 64 <;> simp [hi]

theorem lowBits_eq_emod (n : Int) : lowBits n = n % 2 ^ 64 := by
  cases n with
  | ofNat m =>
    have hand : lowBits (.ofNat m) = (m &&& (2 ^ 64 - 1) : Nat) := rfl
    rw [hand, Nat.and_two_pow_sub_one_eq_mod, Int.ofNat_eq_natCast]
    omega
  | negSucc m =>
    -- the bits of a negative number are those of `m`, each turned over
    have hdiff : lowBits (.negSucc m) = (Nat.ldiff (2 ^ 64 - 1) m : Nat) := rfl
    rw [hdiff, ldiff_eq_sub]
    omega

theorem wrap_eq_signedBits (n : Int) : wrap n = signedBits n := by
  have hmod : n % (modulus : Int) = n % 2 ^ 64 := rfl
  have hhalf : ((modulus : Int) + 1) / 2 = 2 ^ 63 := by decide
  rw [signedBits, lowBits_eq_emod, wrap, Int.bmod_def, hmod, hhalf]
  by_cases h : n % 2 ^ 64 < 2 ^ 63
  · have hle : ¬ max < n % 2 ^ 64 := by
      simp only [max]
      omega
    rw [if_pos h, if_neg hle]
  · have hlt : max < n % 2 ^ 64 := by
      simp only [max]
      omega
    rw [if_neg h, if_pos hlt]
    rfl

theorem wrap_modEq (n : Int) : wrap n ≡ n [ZMOD 2 ^ 64] := Int.bmod_emod

/-- No two integers of the range are congruent. -/
theorem eq_of_modEq {k l : Int} (h : k ≡ l [ZMOD 2 ^ 64]) (hk : min ≤ k ∧ k ≤ max)
    (hl : min ≤ l ∧ l ≤ max) : k = l := by
  have hmod : k % 2 ^ 64 = l % 2 ^ 64 := h
  simp only [min, max] at hk hl
  omega

theorem eq_wrap_iff {k n : Int} :
    k = wrap n ↔ (-2 ^ 63 ≤ k ∧ k ≤ 2 ^ 63 - 1) ∧ k ≡ n [ZMOD 2 ^ 64] := by
  constructor
  · rintro rfl
    exact ⟨wrap_bounds n, wrap_modEq n⟩
  · rintro ⟨hk, hmod⟩
    exact eq_of_modEq (hmod.trans (wrap_modEq n).symm) hk (wrap_bounds n)

theorem wrap_neg_wrap (a : Int) : wrap (-wrap a) = wrap (-a) := by simp [wrap]

/-! ## Division -/

section

variable {a b q r : Int}

theorem IsDivision.ne_zero (h : IsDivision a b q r) : b ≠ 0 := by
  rintro rfl
  exact absurd h.small (Nat.not_lt_zero _)

theorem isDivision_iff : IsDivision a b q r ↔ b ≠ 0 ∧ a.tdiv b = q ∧ a.tmod b = r := by
  constructor
  · intro h
    have hsplit : r + b * q = a := by rw [h.split, Int.mul_comm, Int.add_comm]
    have hsmall := h.small
    refine ⟨h.ne_zero, ?_⟩
    rcases Int.le_total 0 a with ha | ha
    · apply (Int.tdiv_tmod_unique ha h.ne_zero).mpr
      have hr : 0 ≤ r := by
        rcases h.sign with hz | hs
        · omega
        · exact Int.sign_nonneg_iff.mp (hs ▸ Int.sign_nonneg_iff.mpr ha)
      exact ⟨hsplit, hr, by omega⟩
    · apply (Int.tdiv_tmod_unique' ha h.ne_zero).mpr
      have hr : r ≤ 0 := by
        rcases h.sign with hz | hs
        · omega
        · exact Int.sign_nonpos_iff.mp (hs ▸ Int.sign_nonpos_iff.mpr ha)
      exact ⟨hsplit, by omega, hr⟩
  · rintro ⟨hb, rfl, rfl⟩
    refine ⟨?_, ?_, ?_⟩
    · rw [Int.add_comm, Int.tmod_add_tdiv_mul]
    · rw [Int.natAbs_tmod]
      exact Nat.mod_lt _ (Int.natAbs_pos.mpr hb)
    · rw [Int.sign_tmod]
      by_cases hdvd : b ∣ a
      · exact .inl (Int.tmod_eq_zero_of_dvd hdvd)
      · exact .inr (if_neg hdvd)

theorem IsDivision.divide?_eq (h : IsDivision a b q r) : divide? a b = some (wrap q) := by
  obtain ⟨hb, rfl, -⟩ := isDivision_iff.mp h
  exact divide?_of_ne_zero a hb

/-- The cases are those of the definition of the rounded quotient, by the two signs. -/
theorem tdiv_eq_signedQuotient (a b : Int) : a.tdiv b = signedQuotient a b := by
  have hpos (n : Nat) : ¬ Int.ofNat n < 0 := Int.not_lt.mpr (Int.natCast_nonneg n)
  have hneg (n : Nat) : Int.negSucc n < 0 := Int.negSucc_lt_zero n
  cases a with
  | ofNat m =>
    cases b with
    | ofNat n =>
      rw [signedQuotient, if_pos (iff_of_false (hpos m) (hpos n))]
      rfl
    | negSucc n =>
      rw [signedQuotient, if_neg fun h => hpos m (h.mpr (hneg n))]
      rfl
  | negSucc m =>
    cases b with
    | ofNat n =>
      rw [signedQuotient, if_neg fun h => hpos n (h.mp (hneg m))]
      rfl
    | negSucc n =>
      rw [signedQuotient, if_pos (iff_of_true (hneg m) (hneg n))]
      rfl

theorem divide?_eq_signedQuotient (a : Int) {b : Int} (hb : b ≠ 0) :
    divide? a b = some (signedBits (signedQuotient a b)) := by
  rw [divide?_of_ne_zero a hb, tdiv_eq_signedQuotient, wrap_eq_signedBits]

example : divide? (-7) 2 = some (-3) := by decide

theorem existsUnique_quotient (a : Int) {b : Int} (hb : b ≠ 0) : ∃! q, ∃ r, IsDivision a b q r := by
  refine ⟨a.tdiv b, ⟨a.tmod b, isDivision_iff.mpr ⟨hb, rfl, rfl⟩⟩, ?_⟩
  rintro q ⟨r, h⟩
  exact (isDivision_iff.mp h).2.1.symm

/-- Of the integers of the range only the least one has a quotient beyond the range. -/
theorem IsDivision.wrap_ne_iff (h : IsDivision a b q r) (hl : -2 ^ 63 ≤ a) (hu : a ≤ 2 ^ 63 - 1) :
    wrap q ≠ q ↔ a = -2 ^ 63 ∧ b = -1 := by
  have hle : q.natAbs ≤ a.natAbs := by
    obtain ⟨-, rfl, -⟩ := isDivision_iff.mp h
    exact Int.natAbs_tdiv_le_natAbs a b
  have hsplit := h.split
  have hsmall := h.small
  constructor
  · intro hne
    have hq : q = 2 ^ 63 := by
      by_contra hq
      apply hne
      apply wrap_eq_self
      · simp only [min]
        omega
      · simp only [max]
        omega
    subst hq
    omega
  · rintro ⟨rfl, rfl⟩
    have hq : q = 2 ^ 63 := by omega
    subst hq
    decide

end

/-- Reduction gives the one integer of the range that is congruent to what it is given, by its 64
lowest bits; it can be done before sums, differences, products and negations as well as after them.
Division gives the reduced quotient of the division that rounds toward zero, and with a dividend of
the range the reduction changes nothing but the quotient of the least integer by `-1`. -/
theorem exact_on_integers (n a b : Int) :
    (∀ k, k = wrap n ↔ (-2 ^ 63 ≤ k ∧ k ≤ 2 ^ 63 - 1) ∧ k ≡ n [ZMOD 2 ^ 64]) ∧
    wrap n = signedBits n ∧
    wrap (wrap n) = wrap n ∧
    wrap (wrap a + wrap b) = wrap (a + b) ∧
    wrap (wrap a - wrap b) = wrap (a - b) ∧
    wrap (wrap a * wrap b) = wrap (a * b) ∧
    wrap (-wrap a) = wrap (-a) ∧
    (b ≠ 0 → (∃! q, ∃ r, IsDivision a b q r) ∧
      divide? a b = some (signedBits (signedQuotient a b))) ∧
    ∀ q r, IsDivision a b q r → divide? a b = some (wrap q) ∧
      (-2 ^ 63 ≤ a → a ≤ 2 ^ 63 - 1 → (wrap q ≠ q ↔ a = -2 ^ 63 ∧ b = -1)) := by
  refine ⟨fun k => eq_wrap_iff, wrap_eq_signedBits n, wrap_wrap n, wrap_add_wrap a b,
    wrap_sub_wrap a b, wrap_mul_wrap a b, wrap_neg_wrap a, ?_, ?_⟩
  · intro hb
    exact ⟨existsUnique_quotient a hb, divide?_eq_signedQuotient a hb⟩
  · intro q r h
    exact ⟨h.divide?_eq, h.wrap_ne_iff⟩

/-- The least integer divided by `-1`. -/
theorem exact_on_integers_least : IsDivision (-2 ^ 63) (-1) (2 ^ 63) 0 ∧
    (∃! q, ∃ r, IsDivision (-2 ^ 63) (-1) q r) ∧
    divide? (-2 ^ 63) (-1) = some (wrap (2 ^ 63)) ∧ wrap (2 ^ 63) ≠ 2 ^ 63 := by
  have h : IsDivision (-2 ^ 63) (-1) (2 ^ 63) 0 := ⟨by decide, by decide, .inl rfl⟩
  obtain ⟨-, -, -, -, -, -, -, hunique, hdivision⟩ := exact_on_integers 0 (-2 ^ 63) (-1)
  obtain ⟨hgives, hwrap⟩ := hdivision (2 ^ 63) 0 h
  exact ⟨h, (hunique (by decide)).1, hgives,
    (hwrap (Int.le_refl _) (by decide)).mpr ⟨rfl, rfl⟩⟩

end Simian.Int64
