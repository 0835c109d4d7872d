import Simian.Parser
import Simian.Proofs.Steps
import Mathlib.Logic.Function.Iterate

/-!
# How rules move

A rule only ever moves forward over its tokens. Whatever it does, it ends some number of tokens
further on: with a result and no new error, abandoned with one new error about the current token
or the next one, or at a numeral that cannot be read. It never runs out of steps.

`Runs s x y` says so of a rule `x` in the state `s`, and that the rule `y` does the same there.
The pair serves to compare a rule under two bounds on its nesting; for one rule take `Runs s x x`.
Nothing here is about which tokens a rule accepts.
-/

namespace Simian

open Text
set_option autoImplicit false

namespace ParserState

/-- How many tokens stand before the end. -/
def left (s : ParserState) : Nat := s.input.tokens.length

def Ends (s : ParserState) : Prop := s.input.eof.kind = .eof

/-- The state `t` lies some moves ahead of `s`. -/
def Reaches (s t : ParserState) : Prop := ∃ n, t = advance^[n] s

def record (s : ParserState) (e : SyntaxError) : ParserState :=
  { s with errors := s.errors.push e }

@[simp] theorem record_input (s : ParserState) (e : SyntaxError) :
    (s.record e).input = s.input := rfl

@[simp] theorem advance_left (s : ParserState) : s.advance.left = s.left - 1 := by
  simp [left]

@[simp] theorem advance_cur (s : ParserState) : s.advance.input.cur = s.input.peek :=
  TokenStream.cur_next s.input

theorem peekIs_iff {s : ParserState} {k : Kind} :
    s.peekIs k = true ↔ s.input.peek.kind = k := by
  simp [peekIs]

theorem peekIs_eq_false_iff {s : ParserState} {k : Kind} :
    s.peekIs k = false ↔ s.input.peek.kind ≠ k := by
  simp [peekIs]

theorem iterate_advance_tokens (s : ParserState) (n : Nat) :
    (advance^[n] s).input.tokens = s.input.tokens.drop n := by
  induction n generalizing s with
  | zero => rfl
  | succ n ih =>
    rw [Function.iterate_succ_apply, ih, advance_input, TokenStream.next_tokens]
    cases s.input.tokens <;> simp

theorem iterate_advance_eof (s : ParserState) (n : Nat) :
    (advance^[n] s).input.eof = s.input.eof := by
  induction n generalizing s with
  | zero => rfl
  | succ n ih => rw [Function.iterate_succ_apply, ih]; rfl

theorem iterate_advance_errors (s : ParserState) (n : Nat) :
    (advance^[n] s).errors = s.errors := by
  induction n generalizing s with
  | zero => rfl
  | succ n ih => rw [Function.iterate_succ_apply, ih]; rfl

theorem Ends.advance {s : ParserState} (h : s.Ends) : s.advance.Ends := h

theorem cur_of_cons {s : ParserState} {t : Token} {ts : List Token}
    (h : s.input.tokens = t :: ts) : s.input.cur = t := by
  simp [TokenStream.cur, TokenStream.get, h]

theorem cur_of_nil {s : ParserState} (hs : s.Ends) (h : s.input.tokens = []) :
    s.input.cur.kind = .eof := by
  simpa [Ends, TokenStream.cur, TokenStream.get, h] using hs

theorem left_pos_of_cur {s : ParserState} (hs : s.Ends) (h : s.input.cur.kind ≠ .eof) :
    0 < s.left := by
  obtain ⟨⟨tokens, eof⟩, depth, errors⟩ := s
  cases tokens with
  | nil => exact absurd hs h
  | cons t ts => exact Nat.succ_pos _

theorem one_lt_left_of_peek {s : ParserState} (hs : s.Ends) (h : s.input.peek.kind ≠ .eof) :
    1 < s.left := by
  have hp := left_pos_of_cur hs.advance (by simpa using h)
  rw [advance_left] at hp
  omega

theorem one_lt_left_of_peekIs {s : ParserState} {k : Kind} (hs : s.Ends) (hk : k ≠ .eof)
    (h : s.peekIs k = true) : 1 < s.left := by
  exact one_lt_left_of_peek hs (peekIs_iff.mp h ▸ hk)

namespace Reaches
variable {s t u : ParserState}

theorem refl (s : ParserState) : Reaches s s := ⟨0, rfl⟩

theorem step (s : ParserState) : Reaches s s.advance := ⟨1, rfl⟩

theorem trans (hst : Reaches s t) (htu : Reaches t u) : Reaches s u := by
  obtain ⟨m, rfl⟩ := hst
  obtain ⟨n, rfl⟩ := htu
  exact ⟨n + m, (Function.iterate_add_apply advance n m s).symm⟩

theorem of_advance (h : Reaches s.advance t) : Reaches s t := (step s).trans h

theorem ends (h : Reaches s t) (hs : s.Ends) : t.Ends := by
  obtain ⟨n, rfl⟩ := h
  rwa [Ends, iterate_advance_eof]

theorem input_suffix (h : Reaches s t) : t.input.tokens <:+ s.input.tokens := by
  obtain ⟨n, rfl⟩ := h
  rw [iterate_advance_tokens]
  exact List.drop_suffix n _

theorem errors_eq (h : Reaches s t) : t.errors = s.errors := by
  obtain ⟨n, rfl⟩ := h
  exact iterate_advance_errors s n

theorem left_le (h : Reaches s t) : t.left ≤ s.left := by
  obtain ⟨n, rfl⟩ := h
  simp [left, iterate_advance_tokens]

theorem left_lt (h : Reaches s.advance t) (hs : 0 < s.left) : t.left < s.left := by
  have hle := h.left_le
  rw [advance_left] at hle
  omega

end Reaches

end ParserState

namespace Parser

open ParserState
variable {α β : Type}

theorem expect_eq_ok_iff {k : Kind} {s t : ParserState} {a : Unit} :
    expect k s = .ok a t ↔ s.input.peek.kind = k ∧ s.advance = t := by
  cases hp : s.peekIs k with
  | true =>
    have hk := peekIs_iff.mp hp
    simp [expect_of_peekIs hp, hk]
  | false =>
    have hk := peekIs_eq_false_iff.mp hp
    simp [expect_of_not_peekIs hp, hk]

/-- Where a rule may end that starts in `s`. -/
inductive Outcome (s : ParserState) : EStateM.Result Stop ParserState α → Prop where
  | ok {a : α} {t : ParserState} : Reaches s t → Outcome s (.ok a t)
  | abandoned {t : ParserState} {e : SyntaxError} : Reaches s t →
      e.token = t.input.cur ∨ e.token = t.input.peek →
      Outcome s (.error .abandoned (t.record e))
  | numeral {t : ParserState} {fault : NumeralFault} : Reaches s t → t.input.cur.kind = .int →
      readInteger t.input.cur.literal.toList = .error fault →
      Outcome s (.error (.numeral fault) t)

theorem Outcome.of_reaches {s t : ParserState} {r : EStateM.Result Stop ParserState α}
    (hst : Reaches s t) (h : Outcome t r) : Outcome s r := by
  cases h with
  | ok h => exact .ok (hst.trans h)
  | abandoned h hb => exact .abandoned (hst.trans h) hb
  | numeral h hk hf => exact .numeral (hst.trans h) hk hf

theorem Outcome.reaches {s t : ParserState} {a : α} (h : Outcome s (.ok a t)) : Reaches s t := by
  cases h with
  | ok h => exact h

theorem Outcome.error {s t : ParserState} {stop : Stop}
    (h : Outcome s (.error stop t : EStateM.Result Stop ParserState α)) :
    Outcome s (.error stop t : EStateM.Result Stop ParserState β) := by
  cases h with
  | abandoned h hb => exact .abandoned h hb
  | numeral h hk hf => exact .numeral h hk hf

/-- In the state `s` the rules `x` and `y` agree, and they end as a rule may end. -/
structure Runs (s : ParserState) (x y : Parser α) : Prop where
  eq : x s = y s
  outcome : Outcome s (x s)

namespace Runs
variable {s : ParserState} {x y : Parser α} {f g : α → Parser β}

theorem reaches {a : α} {t : ParserState} (h : Runs s x y) (hx : x s = .ok a t) :
    Reaches s t := by
  have ho := h.outcome
  rw [hx] at ho
  exact ho.reaches

theorem self (h : Runs s x y) : Runs s x x := ⟨rfl, h.outcome⟩

theorem pure (a : α) : Runs s (Pure.pure a) (Pure.pure a) := ⟨rfl, .ok (.refl s)⟩

theorem bind (h : Runs s x y) (hf : ∀ a t, x s = .ok a t → Reaches s t → Runs t (f a) (g a)) :
    Runs s (x >>= f) (y >>= g) := by
  cases hx : x s with
  | ok a t =>
    have hr := hf a t hx (h.reaches hx)
    have hy : y s = .ok a t := h.eq ▸ hx
    constructor
    · rw [bind_of_ok hx, bind_of_ok hy, hr.eq]
    · rw [bind_of_ok hx]
      exact .of_reaches (h.reaches hx) hr.outcome
  | error stop t =>
    have hy : y s = .error stop t := h.eq ▸ hx
    have ho := h.outcome
    rw [hx] at ho
    constructor
    · rw [bind_of_error hx, bind_of_error hy]
    · rw [bind_of_error hx]
      exact ho.error

theorem map (h : Runs s x y) (f : α → β) :
    Runs s (x >>= fun a => Pure.pure (f a)) (y >>= fun a => Pure.pure (f a)) :=
  h.bind fun _ _ _ _ => .pure _

theorem cur_bind {f g : Token → Parser β} (h : Runs s (f s.input.cur) (g s.input.cur)) :
    Runs s (cur >>= f) (cur >>= g) := ⟨h.eq, h.outcome⟩

theorem peek_bind {f g : Token → Parser β} (h : Runs s (f s.input.peek) (g s.input.peek)) :
    Runs s (peek >>= f) (peek >>= g) := ⟨h.eq, h.outcome⟩

theorem next : Runs s next next := ⟨rfl, .ok (.step s)⟩

theorem next_bind {f g : Unit → Parser β} (h : Runs s.advance (f ()) (g ())) :
    Runs s (Parser.next >>= f) (Parser.next >>= g) :=
  Runs.next.bind fun _ t ht _ => by
    obtain rfl : s.advance = t := by simpa using ht
    exact h

theorem fail_cur (cause : SyntaxCause) :
    Runs s (fail cause s.input.cur : Parser α) (fail cause s.input.cur) :=
  ⟨rfl, .abandoned (.refl s) (.inl rfl)⟩

theorem fail_peek (cause : SyntaxCause) :
    Runs s (fail cause s.input.peek : Parser α) (fail cause s.input.peek) :=
  ⟨rfl, .abandoned (.refl s) (.inr rfl)⟩

theorem expect (k : Kind) : Runs s (expect k) (expect k) := by
  refine ⟨rfl, ?_⟩
  unfold Parser.expect
  split
  · exact .ok (.step s)
  · exact (fail_peek _).outcome

theorem expect_bind {k : Kind} {f g : Unit → Parser β}
    (h : s.peekIs k = true → Runs s.advance (f ()) (g ())) :
    Runs s (Parser.expect k >>= f) (Parser.expect k >>= g) := by
  apply (Runs.expect k).bind
  intro _ t ht _
  cases hp : s.peekIs k with
  | true =>
    obtain rfl : s.advance = t := by simpa [expect_of_peekIs hp] using ht
    exact h hp
  | false => simp [expect_of_not_peekIs hp] at ht

theorem skipOptional (k : Kind) : Runs s (skipOptional k) (skipOptional k) := by
  refine ⟨rfl, ?_⟩
  unfold Parser.skipOptional
  split
  · exact .ok (.step s)
  · exact .ok (.refl s)

end Runs

section Loops
variable {again : ParserState → Bool} {body body' : α → Parser α}

theorem repeatWhile_of_not_again {s : ParserState} (h : again s = false) (n : Nat) (a : α) :
    repeatWhile again body n a s = .ok a s := by
  cases n <;> simp [repeatWhile, h]

theorem repeatWhile_succ {s : ParserState} (h : again s = true) (n : Nat) (a : α) :
    repeatWhile again body (n + 1) a s =
      (body a >>= fun b => repeatWhile again body n b) s := by
  simp [repeatWhile, h]

/-- Among the states in `I`, every round that ends well leaves less to read. -/
def Shrinks (I : ParserState → Prop) (again : ParserState → Bool) (body : α → Parser α) : Prop :=
  ∀ a s b t, I s → again s = true → body a s = .ok b t → I t ∧ t.left < s.left

variable {I : ParserState → Prop} (hb : Shrinks I again body)
include hb

theorem repeatWhile_eq {s : ParserState} (hs : I s) {m n : Nat}
    (hm : s.left < m) (hn : s.left < n) (a : α) :
    repeatWhile again body m a s = repeatWhile again body n a s := by
  induction m generalizing n s a with
  | zero => exact absurd hm (Nat.not_lt_zero _)
  | succ m ih =>
    obtain ⟨n, rfl⟩ : ∃ k, n = k + 1 := ⟨n - 1, by omega⟩
    cases ha : again s with
    | false => rw [repeatWhile_of_not_again ha, repeatWhile_of_not_again ha]
    | true =>
      rw [repeatWhile_succ ha, repeatWhile_succ ha]
      cases hx : body a s with
      | ok b t =>
        obtain ⟨ht, hlt⟩ := hb a s b t hs ha hx
        rw [bind_of_ok hx, bind_of_ok hx]
        exact ih ht (by omega) (by omega) b
      | error stop t => rw [bind_of_error hx, bind_of_error hx]

/-- One round of a loop, the bound on the rounds out of sight. -/
theorem loop_of_again {s : ParserState} (hs : I s) (h : again s = true) (a : α) :
    loop again body a s = (body a >>= loop again body) s := by
  change repeatWhile again body (s.left + 1) a s = _
  rw [repeatWhile_succ h]
  cases hx : body a s with
  | ok b t =>
    obtain ⟨ht, hlt⟩ := hb a s b t hs h hx
    rw [bind_of_ok hx, bind_of_ok hx]
    exact repeatWhile_eq hb ht hlt (Nat.lt_succ_self _) b
  | error stop t => rw [bind_of_error hx, bind_of_error hx]

/-- What holds at the end of a loop, and before each round if behind it, holds at the start. -/
theorem loop_induction {b : α} {t : ParserState} {motive : α → ParserState → Prop}
    (stop : I t → again t = false → motive b t)
    (round : ∀ a s a' s', I s → again s = true → body a s = .ok a' s' → I s' →
      loop again body a' s' = .ok b t → motive a' s' → motive a s)
    {s : ParserState} {a : α} (hs : I s) (h : loop again body a s = .ok b t) : motive a s := by
  induction hn : s.left using Nat.strongRecOn generalizing s a with
  | _ n ih =>
    cases ha : again s with
    | false =>
      rw [loop_of_not_again ha] at h
      cases h
      exact stop hs ha
    | true =>
      rw [loop_of_again hb hs ha] at h
      obtain ⟨a', s', hx, hl⟩ := bind_eq_ok_iff.mp h
      obtain ⟨hs', hlt⟩ := hb a s a' s' hs ha hx
      exact round a s a' s' hs ha hx hs' hl (ih s'.left (hn ▸ hlt) hs' hl rfl)

theorem loop_congr {s : ParserState} (hs : I s)
    (h : ∀ a s, I s → again s = true → body a s = body' a s) (a : α) :
    loop again body a s = loop again body' a s := by
  suffices hn : ∀ n s a, I s → repeatWhile again body n a s = repeatWhile again body' n a s from
    hn _ s a hs
  intro n
  induction n with
  | zero => exact fun _ _ _ => rfl
  | succ n ih =>
    intro s a hs
    cases ha : again s with
    | false => rw [repeatWhile_of_not_again ha, repeatWhile_of_not_again ha]
    | true =>
      rw [repeatWhile_succ ha, repeatWhile_succ ha]
      have hxy := h a s hs ha
      cases hx : body a s with
      | ok b t =>
        rw [bind_of_ok hx, bind_of_ok (hxy ▸ hx)]
        exact ih t b (hb a s b t hs ha hx).1
      | error stop t => rw [bind_of_error hx, bind_of_error (hxy ▸ hx)]

theorem Runs.loop {s : ParserState} (hs : I s)
    (h : ∀ a t, I t → again t = true → Runs t (body a) (body' a)) (a : α) :
    Runs s (loop again body a) (loop again body' a) := by
  refine ⟨loop_congr hb hs (fun a t ht ha => (h a t ht ha).eq) a, ?_⟩
  induction hn : s.left using Nat.strongRecOn generalizing s a with
  | _ n ih =>
    cases ha : again s with
    | false =>
      rw [loop_of_not_again ha]
      exact .ok (.refl s)
    | true =>
      rw [loop_of_again hb hs ha]
      have hr := h a s hs ha
      cases hx : body a s with
      | ok b t =>
        obtain ⟨ht, hlt⟩ := hb a s b t hs ha hx
        rw [bind_of_ok hx]
        exact .of_reaches (hr.reaches hx) (ih t.left (hn ▸ hlt) ht b rfl)
      | error stop t =>
        have ho := hr.outcome
        rw [hx] at ho
        rw [bind_of_error hx]
        exact ho.error

end Loops

end Parser

end Simian
