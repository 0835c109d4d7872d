import Simian.Assoc
import Simian.Cursor
import Mathlib.Data.List.TakeWhile

/-!
# The tokens of a source

A source is read token by token, and its stream is an equation in the token read next. Every
token but the last is spelled as its kind asks: numerals are runs of digits, names are runs of
letters that reserve no word, strings hold no quotation mark, and operators are as written.
-/

namespace Simian

open Text
set_option autoImplicit false

def operators : List Kind := [.bang, .eq, .notEq, .lt, .gt, .plus, .minus, .asterisk, .slash]

/-- How a token of kind `k` is spelled, so far as the kind does not say it. -/
structure Spelled (k : Kind) (literal : List Char) : Prop where
  ne_eof : k ≠ .eof
  int : k = .int → literal ≠ [] ∧ ∀ c ∈ literal, isDigit c = true
  ident : k = .ident → literal ≠ [] ∧ (∀ c ∈ literal, isLetter c = true) ∧
    Kind.ofWord (String.ofList literal) = .ident
  string : k = .string → '\x22' ∉ literal
  operator : k ∈ operators → literal = k.text.toList

theorem Spelled.of_other {k : Kind} {literal : List Char}
    (hk : k ∉ [Kind.eof, .int, .ident, .string])
    (h : k ∈ operators → literal = k.text.toList) : Spelled k literal := by
  simp only [List.mem_cons, List.not_mem_nil, or_false, not_or] at hk
  exact ⟨hk.1, fun he => absurd he hk.2.1, fun he => absurd he hk.2.2.1,
    fun he => absurd he hk.2.2.2, h⟩

theorem Spelled.of_int {literal : List Char} (hne : literal ≠ [])
    (h : ∀ c ∈ literal, isDigit c = true) : Spelled .int literal :=
  ⟨by decide, fun _ => ⟨hne, h⟩, by simp, by simp, fun hop => absurd hop (by decide)⟩

theorem Spelled.of_string {literal : List Char} (h : '\x22' ∉ literal) : Spelled .string literal :=
  ⟨by decide, by simp, by simp, fun _ => h, fun hop => absurd hop (by decide)⟩

theorem Spelled.of_ident {literal : List Char} (hne : literal ≠ [])
    (h : ∀ c ∈ literal, isLetter c = true)
    (hk : Kind.ofWord (String.ofList literal) = .ident) : Spelled .ident literal :=
  ⟨by decide, by simp, fun _ => ⟨hne, h, hk⟩, by simp, fun hop => absurd hop (by decide)⟩

theorem Spelled.of_illegal (literal : List Char) : Spelled .illegal literal :=
  .of_other (by decide) fun hop => absurd hop (by decide)

namespace Lexeme

theorem ofWord_mem (word : String) : Kind.ofWord word ∈ [Kind.ident, .fnWord, .letWord, .ifWord,
    .elseWord, .trueWord, .falseWord, .returnWord] := by
  unfold Kind.ofWord
  cases hk : keywords.lookup word with
  | none => exact List.mem_cons_self
  | some k =>
    have hmem : k ∈ keywords.map Prod.snd := List.mem_map_of_mem (Assoc.mem_of_lookup hk)
    exact List.mem_cons_of_mem _ hmem

theorem word_spelled {letters : List Char} (hne : letters ≠ [])
    (h : ∀ c ∈ letters, isLetter c = true) :
    Spelled (word letters).kind (word letters).literal := by
  have hm := ofWord_mem (String.ofList letters)
  change Spelled (Kind.ofWord (String.ofList letters)) letters
  by_cases hk : Kind.ofWord (String.ofList letters) = .ident
  · rw [hk]
    exact .of_ident hne h hk
  · refine .of_other ?_ fun hop => ?_
    · revert hm hk
      cases Kind.ofWord (String.ofList letters) <;> decide
    · revert hm hop
      cases Kind.ofWord (String.ofList letters) <;> intro hm hop <;>
        first | exact absurd hm (by decide) | exact absurd hop (by decide)

theorem quotation_spelled (rest : List Char) :
    Spelled (quotation rest).kind (quotation rest).literal := by
  simp only [quotation]
  split
  · exact .of_string fun hq => absurd (List.mem_takeWhile_imp hq) (by decide)
  · exact .of_illegal _

theorem operator_spelled (c : Char) (rest : List Char) :
    Spelled (operator c rest).kind (operator c rest).literal := by
  unfold operator
  split
  · next k hk =>
    unfold pair at hk
    split at hk
    · next hq =>
      obtain ⟨tail, rfl⟩ := List.head?_eq_some_iff.mp hq
      cases hk
      exact .of_other (k := .eq) (by decide) fun _ => rfl
    · next hq =>
      obtain ⟨tail, rfl⟩ := List.head?_eq_some_iff.mp hq
      cases hk
      exact .of_other (k := .notEq) (by decide) fun _ => rfl
    · cases hk
  · unfold single
    split <;> first | exact .of_other (by decide) (by decide) | exact .of_illegal _

theorem first_spelled (c : Char) (rest : List Char) :
    Spelled (first c rest).kind (first c rest).literal := by
  unfold first
  split
  · next hc =>
    apply word_spelled (List.cons_ne_nil _ _)
    intro x hx
    rcases List.mem_cons.mp hx with rfl | hx
    · exact hc
    · exact List.mem_takeWhile_imp hx
  · split
    · next hc =>
      refine .of_int (List.cons_ne_nil _ _) fun x hx => ?_
      rcases List.mem_cons.mp hx with rfl | hx
      · exact hc
      · exact List.mem_takeWhile_imp hx
    · split
      · exact quotation_spelled rest
      · exact operator_spelled c rest

end Lexeme

namespace Cursor

theorem next_of_nil {c : Cursor} (h : c.skipBlanks.rest = []) :
    c.next = (⟨.eof, "", c.skipBlanks.position⟩, c.skipBlanks) := by
  simp [next, h]

theorem next_of_cons {c : Cursor} {x : Char} {rest : List Char}
    (h : c.skipBlanks.rest = x :: rest) :
    c.next = (⟨(Lexeme.first x rest).kind, String.ofList (Lexeme.first x rest).literal,
      c.skipBlanks.position⟩, advance (Lexeme.first x rest).width c.skipBlanks) := by
  simp [next, h]

theorem rest_lt_of_kind {c : Cursor} (h : c.next.1.kind ≠ .eof) :
    c.next.2.rest.length < c.rest.length := by
  refine next_rest_lt c fun hnil => h ?_
  rw [next_of_nil hnil]

theorem readUpTo_of_eof {c : Cursor} (h : c.next.1.kind = .eof) (n : Nat) :
    readUpTo n c = (⟨[], c.next.1⟩, c.next.2) := by
  cases n with
  | zero => rfl
  | succ n => simp [readUpTo, h]

theorem readUpTo_succ {c : Cursor} (h : c.next.1.kind ≠ .eof) (n : Nat) :
    readUpTo (n + 1) c = (⟨c.next.1 :: (readUpTo n c.next.2).1.tokens,
      (readUpTo n c.next.2).1.eof⟩, (readUpTo n c.next.2).2) := by
  simp [readUpTo, h]

theorem readUpTo_eq {c : Cursor} {m n : Nat} (hm : c.rest.length ≤ m) (hn : c.rest.length ≤ n) :
    readUpTo m c = readUpTo n c := by
  by_cases h : c.next.1.kind = .eof
  · rw [readUpTo_of_eof h, readUpTo_of_eof h]
  · have hlt := rest_lt_of_kind h
    induction m generalizing n c with
    | zero => omega
    | succ m ih =>
      obtain ⟨n, rfl⟩ : ∃ k, n = k + 1 := ⟨n - 1, by omega⟩
      rw [readUpTo_succ h, readUpTo_succ h]
      by_cases h' : c.next.2.next.1.kind = .eof
      · rw [readUpTo_of_eof h', readUpTo_of_eof h']
      · rw [ih (by omega) (by omega : _ ≤ n) h' (rest_lt_of_kind h')]

theorem stream_of_eof {c : Cursor} (h : c.next.1.kind = .eof) : c.stream = ⟨[], c.next.1⟩ := by
  rw [stream, read, readUpTo_of_eof h]

theorem stream_of_token {c : Cursor} (h : c.next.1.kind ≠ .eof) :
    c.stream = ⟨c.next.1 :: c.next.2.stream.tokens, c.next.2.stream.eof⟩ := by
  have hlt := rest_lt_of_kind h
  obtain ⟨n, hn⟩ : ∃ k, c.rest.length = k + 1 := ⟨c.rest.length - 1, by omega⟩
  rw [stream, read, hn, readUpTo_succ h, stream, read,
    readUpTo_eq (by omega : _ ≤ n) (Nat.le_refl _)]

theorem stream_of_blank {c : Cursor} {x : Char} {rest : List Char} (h : c.rest = x :: rest)
    (hx : isBlank x = true) : c.stream = (advance 1 c).stream := by
  have hskip : c.skipBlanks = (advance 1 c).skipBlanks := by
    rw [skipBlanks, skipBlanks, advance_advance, advance_rest, h, List.takeWhile_cons_of_pos hx,
      List.length_cons, Nat.add_comm]
    rfl
  have hnext : c.next = (advance 1 c).next := by
    rw [next, next, hskip]
  by_cases hk : c.next.1.kind = .eof
  · rw [stream_of_eof hk, stream_of_eof (hnext ▸ hk), hnext]
  · rw [stream_of_token hk, hnext]
    exact (stream_of_token (hnext ▸ hk)).symm

theorem next_kind_eof_iff {c : Cursor} : c.next.1.kind = .eof ↔ c.skipBlanks.rest = [] := by
  constructor
  · intro h
    cases hr : c.skipBlanks.rest with
    | nil => rfl
    | cons x rest =>
      rw [next_of_cons hr] at h
      exact absurd h (Lexeme.first_spelled x rest).ne_eof
  · intro h
    rw [next_of_nil h]

theorem stream_spelled (c : Cursor) : c.stream.eof.kind = .eof ∧
    ∀ t ∈ c.stream.tokens, Spelled t.kind t.literal.toList := by
  induction hn : c.rest.length using Nat.strongRecOn generalizing c with
  | _ n ih =>
    by_cases h : c.next.1.kind = .eof
    · rw [stream_of_eof h]
      exact ⟨h, fun _ ht => absurd ht List.not_mem_nil⟩
    · obtain ⟨heof, hall⟩ := ih _ (hn ▸ rest_lt_of_kind h) c.next.2 rfl
      rw [stream_of_token h]
      refine ⟨heof, fun t ht => ?_⟩
      rcases List.mem_cons.mp ht with rfl | ht
      · cases hr : c.skipBlanks.rest with
        | nil => exact absurd (next_kind_eof_iff.mpr hr) h
        | cons x rest =>
          rw [next_of_cons hr, String.toList_ofList]
          exact Lexeme.first_spelled x rest
      · exact hall t ht

/-- Line and column leave room for a line or a column for each character still to be read. -/
structure Within (bound : Int) (c : Cursor) : Prop where
  line_pos : 1 ≤ c.position.line
  line_le : c.position.line + c.rest.length ≤ bound
  column_pos : 1 ≤ c.position.column
  column_le : c.position.column + c.rest.length ≤ bound

theorem Within.advance {bound : Int} {c : Cursor} (h : c.Within bound) (n : Nat) :
    (advance n c).Within bound := by
  induction n generalizing c with
  | zero => exact h
  | succ n ih =>
    obtain ⟨rest, offset, p⟩ := c
    cases rest with
    | nil => rwa [advance_end]
    | cons x rest =>
      obtain ⟨hline, hline', hcolumn, hcolumn'⟩ := h
      simp only [List.length_cons] at hline hline' hcolumn hcolumn'
      apply ih
      unfold Position.after
      split <;> constructor <;> simp only <;> omega

theorem stream_within {bound : Int} {c : Cursor} (h : c.Within bound) :
    ∀ t ∈ c.stream.tokens, 1 ≤ t.position.line ∧ t.position.line ≤ bound ∧
      1 ≤ t.position.column ∧ t.position.column ≤ bound := by
  induction hn : c.rest.length using Nat.strongRecOn generalizing c with
  | _ n ih =>
    by_cases hk : c.next.1.kind = .eof
    · rw [stream_of_eof hk]
      exact fun _ ht => absurd ht List.not_mem_nil
    · obtain ⟨x, rest, hr⟩ := List.exists_cons_of_ne_nil (mt next_kind_eof_iff.mpr hk)
      have hskip : c.skipBlanks.Within bound := h.advance _
      have hnext : c.next.2.Within bound := by
        rw [next_of_cons hr]
        exact hskip.advance _
      rw [stream_of_token hk]
      refine List.forall_mem_cons.mpr ⟨?_, ih _ (hn ▸ rest_lt_of_kind hk) hnext rfl⟩
      obtain ⟨hline, hline', hcolumn, hcolumn'⟩ := hskip
      rw [next_of_cons hr]
      refine ⟨hline, ?_, hcolumn, ?_⟩ <;> simp only <;> omega

end Cursor

/-- The tokens of a source are spelled as they should be; only what ends them is an end. -/
theorem tokenize_spelled (source : String) : (tokenize source).eof.kind = .eof ∧
    ∀ t ∈ (tokenize source).tokens, Spelled t.kind t.literal.toList :=
  (Cursor.start source).stream_spelled

/-- No token stands in a later line or column than there are characters, and one more. -/
theorem tokenize_within (source : String) : ∀ t ∈ (tokenize source).tokens,
    1 ≤ t.position.line ∧ t.position.line ≤ source.length + 1 ∧
      1 ≤ t.position.column ∧ t.position.column ≤ source.length + 1 := by
  refine Cursor.stream_within (c := Cursor.start source) ⟨Int.le_refl 1, ?_, Int.le_refl 1, ?_⟩ <;>
    simp [Cursor.start, Cursor.ofList, Int.add_comm, String.length_toList]

end Simian
