import Simian.Proofs.Lexing

/-!
# The places of tokens

Reading a source only moves forward, and a token takes at least one character, so each token of a
source starts behind the one before it, and the end comes behind them all.
-/

namespace Simian

open Text
set_option autoImplicit false

/-- The place `p` comes before `q`: on an earlier line, or on the same line further left. -/
def Position.Before (p q : Position) : Prop :=
  p.line < q.line ∨ p.line = q.line ∧ p.column < q.column

instance (p q : Position) : Decidable (Position.Before p q) :=
  inferInstanceAs (Decidable (_ ∨ _ ∧ _))

/-- The place `p` is `q` or comes before it. -/
def Position.UpTo (p q : Position) : Prop := p = q ∨ p.Before q

namespace Position

variable {p q r : Position}

theorem Before.trans (h : p.Before q) (h' : q.Before r) : p.Before r := by
  unfold Before at *
  omega

theorem UpTo.trans_before (h : p.UpTo q) (h' : q.Before r) : p.Before r := by
  rcases h with rfl | h
  · exact h'
  · exact h.trans h'

theorem Before.trans_upTo (h : p.Before q) (h' : q.UpTo r) : p.Before r := by
  rcases h' with rfl | h'
  · exact h
  · exact h.trans h'

theorem before_after (p : Position) (c : Char) : p.Before (p.after c) := by
  unfold after
  split
  · exact .inl (Int.lt_succ _)
  · exact .inr ⟨rfl, Int.lt_succ _⟩

end Position

namespace Cursor

theorem upTo_advance (n : Nat) (c : Cursor) : c.position.UpTo (advance n c).position := by
  induction n generalizing c with
  | zero => exact .inl rfl
  | succ n ih =>
    obtain ⟨rest, offset, p⟩ := c
    cases rest with
    | nil =>
      rw [advance_end]
      exact .inl rfl
    | cons x rest =>
      rw [advance_cons]
      exact .inr ((p.before_after x).trans_upTo (ih ⟨rest, offset + 1, p.after x⟩))

theorem before_advance {n : Nat} {c : Cursor} (hn : 0 < n) (hc : c.rest ≠ []) :
    c.position.Before (advance n c).position := by
  obtain ⟨rest, offset, p⟩ := c
  obtain ⟨x, rest, rfl⟩ := List.exists_cons_of_ne_nil hc
  obtain ⟨n, rfl⟩ := Nat.exists_eq_add_one_of_ne_zero (Nat.ne_of_gt hn)
  rw [advance_cons]
  exact (p.before_after x).trans_upTo (upTo_advance n ⟨rest, offset + 1, p.after x⟩)

theorem upTo_skipBlanks (c : Cursor) : c.position.UpTo c.skipBlanks.position := upTo_advance _ c

theorem next_position (c : Cursor) : c.next.1.position = c.skipBlanks.position := by
  cases h : c.skipBlanks.rest with
  | nil => rw [next_of_nil h]
  | cons x rest => rw [next_of_cons h]

/-- A token ends behind the place where it starts. -/
theorem next_before {c : Cursor} (h : c.next.1.kind ≠ .eof) :
    c.next.1.position.Before c.next.2.position := by
  cases hr : c.skipBlanks.rest with
  | nil => exact absurd (next_kind_eof_iff.mpr hr) h
  | cons x rest =>
    rw [next_of_cons hr]
    exact before_advance (Lexeme.first_width_pos x rest) (hr ▸ List.cons_ne_nil x rest)

/-- The tokens from a cursor on, the end included, come one behind the other, and none of them
before the cursor. -/
theorem stream_positions (c : Cursor) : (∀ t ∈ c.stream.toList, c.position.UpTo t.position) ∧
    c.stream.toList.Pairwise fun t u => t.position.Before u.position := by
  induction hn : c.rest.length using Nat.strongRecOn generalizing c with
  | _ n ih =>
    have hfirst : c.position.UpTo c.next.1.position := next_position c ▸ upTo_skipBlanks c
    by_cases h : c.next.1.kind = .eof
    · rw [stream_of_eof h]
      exact ⟨fun t ht => List.mem_singleton.mp ht ▸ hfirst, List.pairwise_singleton _ _⟩
    · obtain ⟨hle, hpairs⟩ := ih _ (hn ▸ rest_lt_of_kind h) c.next.2 rfl
      have hbehind : ∀ t ∈ c.next.2.stream.toList, c.next.1.position.Before t.position :=
        fun t ht => (next_before h).trans_upTo (hle t ht)
      rw [stream_of_token h]
      change (∀ t ∈ c.next.1 :: c.next.2.stream.toList, _) ∧
        (c.next.1 :: c.next.2.stream.toList).Pairwise _
      refine ⟨fun t ht => ?_, List.pairwise_cons.mpr ⟨hbehind, hpairs⟩⟩
      rcases List.mem_cons.mp ht with rfl | ht
      · exact hfirst
      · exact .inr (hfirst.trans_before (hbehind t ht))

end Cursor

/-- The tokens of a source, its end included, stand one behind the other. -/
theorem tokenize_positions (source : String) :
    (tokenize source).toList.Pairwise fun t u => t.position.Before u.position :=
  (Cursor.stream_positions (Cursor.start source)).2

end Simian
