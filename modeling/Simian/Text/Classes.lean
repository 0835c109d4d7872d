/-!
# Letters, digits and blanks

The character classes of the language. Letters and digits are ASCII only, and the same classes
are also read on whole texts by their dictionary order.
-/

namespace Simian.Text

set_option autoImplicit false

def isLetter (c : Char) : Bool :=
  ('a' ≤ c && c ≤ 'z') || ('A' ≤ c && c ≤ 'Z') || c == '_'

def isDigit (c : Char) : Bool := '0' ≤ c && c ≤ '9'

/-- What separates tokens and belongs to none. -/
def isBlank (c : Char) : Bool := c == ' ' || c == '\t' || c == '\n' || c == '\r'

/-- Whether a text lies between `low` and `high` in dictionary order by code point. -/
def between (low high s : String) : Bool := decide (low ≤ s) && decide (s ≤ high)

def isLetterText (s : String) : Bool := between "a" "z" s || between "A" "Z" s || s == "_"

def isDigitText (s : String) : Bool := between "0" "9" s

theorem isDigit_not_isLetter {c : Char} (h : isDigit c = true) : isLetter c = false := by
  simp only [isDigit, isLetter, Bool.and_eq_true, decide_eq_true_eq, Char.le_def,
    UInt32.le_iff_toNat_le, Bool.or_eq_false_iff, Bool.and_eq_false_iff, decide_eq_false_iff_not,
    beq_eq_false_iff_ne, ne_eq] at h ⊢
  have h0 : ('0' : Char).val.toNat = 48 := rfl
  have h9 : ('9' : Char).val.toNat = 57 := rfl
  have ha : ('a' : Char).val.toNat = 97 := rfl
  have hA : ('A' : Char).val.toNat = 65 := rfl
  refine ⟨⟨Or.inl (by omega), Or.inl (by omega)⟩, ?_⟩
  rintro rfl
  have hu : ('_' : Char).val.toNat = 95 := rfl
  omega

end Simian.Text
