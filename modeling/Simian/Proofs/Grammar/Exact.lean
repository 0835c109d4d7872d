import Simian.Proofs.Grammar.Complete
import Simian.Proofs.Grammar.Grouping
import Simian.Proofs.Lexing
import Simian.Proofs.Shape

/-!
# The parser and the grammar

A source is parsed without errors when its tokens are derived by the grammar, and not otherwise.
What is parsed is the tree of the derivation whose operators group as they bind; there is no
other such tree. Whether there is a derivation at all does not depend on how operators group.
-/

namespace Simian

open Text Grammar ParserState
set_option autoImplicit false

section
variable {s t : ParserState} {ts : List Token}

theorem ParserState.Passes.eq_tokens (h : Passes s ts t) (ht : t.input.cur.kind = .eof)
    (hs : ∀ a ∈ s.input.tokens, a.kind ≠ .eof) : s.input.tokens = ts := by
  have htokens := h.tokens
  cases hrest : t.input.tokens with
  | nil => rw [htokens, hrest, List.append_nil]
  | cons a as =>
    have hcur : t.input.cur = a := cur_of_cons hrest
    refine absurd (hcur ▸ ht) (hs a ?_)
    rw [htokens, hrest]
    exact List.mem_append_right ts List.mem_cons_self

theorem ParserState.passes_tokens (hs : s.Ends) :
    ∃ t, Passes s s.input.tokens t ∧ t.input.cur.kind = .eof := by
  have hp : Passes s s.input.tokens (advance^[s.input.tokens.length] s) :=
    ⟨List.prefix_refl _, rfl⟩
  refine ⟨_, hp, ?_⟩
  have hnil := iterate_advance_tokens s s.input.tokens.length
  rw [List.drop_length] at hnil
  exact cur_of_nil (hp.reaches.ends hs) hnil

end

theorem parseStrict_eq_ok_iff {source : String} {program : List Node} :
    parseStrict source = .ok program ↔ parse source = .ok ⟨program, []⟩ := by
  unfold parseStrict
  cases parse source with
  | error stop => simp
  | ok parsed =>
    obtain ⟨ss, es⟩ := parsed
    cases es <;> simp

namespace Grammar

section
variable (source : String)

theorem proper_source : Proper (ofStream (tokenize source)) := by
  obtain ⟨heof, hall⟩ := tokenize_spelled source
  refine ⟨heof, fun t ht hk => ?_⟩
  obtain ⟨hne, hdigits⟩ := (hall t ht).int hk
  exact faithful_of_digits hne hdigits hk

variable {source}

theorem legible_source (h : ∀ t ∈ (tokenize source).tokens, t.kind = .int →
    t.literal.length ≤ digitLimit) : Legible (ofStream (tokenize source)) := by
  obtain ⟨heof, hall⟩ := tokenize_spelled source
  refine ⟨heof, fun t ht hk => ?_⟩
  obtain ⟨hne, hdigits⟩ := (hall t ht).int hk
  refine readable_of_digits hne hdigits ?_ hk
  rw [String.length_toList]
  exact h t ht hk

/-- What a source without errors is parsed to is derived by the grammar. -/
theorem derived_of_parse {ns : List Node} (h : parse source = .ok ⟨ns, []⟩) :
    Statements .ranked (tokenize source).tokens ns := by
  obtain ⟨heof, hall⟩ := tokenize_spelled source
  obtain ⟨ss, t, hx, heq⟩ := (Parser.parseStream_eq_ok_iff heof).mp h
  obtain ⟨hns, herr⟩ := Parsed.mk.inj heq
  obtain ⟨hend, us, ms, hus, hms, hst⟩ := program_sound (proper_source source) hx
    (Array.toList_inj.mp herr.symm)
  have htokens : (tokenize source).tokens = us :=
    hus.eq_tokens hend fun a ha => (hall a ha).ne_eof
  rw [hns, hms, htokens]
  exact hst

/-- The statements of a source without errors are those that the grammar derives. -/
theorem parse_eq_ok_iff {ns : List Node} (h : Legible (ofStream (tokenize source))) :
    parse source = .ok ⟨ns, []⟩ ↔ Statements .ranked (tokenize source).tokens ns := by
  constructor
  · exact derived_of_parse
  · intro hst
    obtain ⟨heof, -⟩ := tokenize_spelled source
    rw [parse, Parser.parseStream_eq_ok_iff heof]
    obtain ⟨t, ht, hend⟩ := passes_tokens h.ends
    refine ⟨_, t, program_complete hst h ht hend #[], ?_⟩
    rw [ht.reaches.errors_eq, Array.empty_append]
    rfl

/-- Up to tokens, the program `n` is one that the grammar derives from `ts`. -/
def IsTree (b : Binding) (ts : List Token) (n : Node) : Prop :=
  ∃ ns, Statements b ts ns ∧ (Node.program ns).shape = n.shape

/-- A source parses without errors to the program `n`, up to tokens, just when its tokens are
derived with that tree; and it parses without errors at all just when its tokens are derived with
operators in any grouping. -/
theorem parse_iff_derived (h : ∀ t ∈ (tokenize source).tokens, t.kind = .int →
    t.literal.length ≤ digitLimit) :
    (∀ n : Node, (∃ parsed, parse source = .ok parsed ∧ parsed.errors = [] ∧
        parsed.program.shape = n.shape) ↔ IsTree .ranked (tokenize source).tokens n) ∧
      ((∃ parsed, parse source = .ok parsed ∧ parsed.errors = []) ↔
        ∃ n, IsTree .free (tokenize source).tokens n) := by
  have hs := legible_source h
  refine ⟨fun n => ⟨?_, ?_⟩, ?_, ?_⟩
  · rintro ⟨⟨ns, es⟩, hx, rfl, hshape⟩
    exact ⟨ns, (parse_eq_ok_iff hs).mp hx, hshape⟩
  · rintro ⟨ns, hst, hshape⟩
    exact ⟨⟨ns, []⟩, (parse_eq_ok_iff hs).mpr hst, rfl, hshape⟩
  · rintro ⟨⟨ns, es⟩, hx, rfl⟩
    exact ⟨_, ns, ((parse_eq_ok_iff hs).mp hx).free, rfl⟩
  · rintro ⟨n, ns, hst, -⟩
    obtain ⟨ms, hms⟩ := hst.regroup
    exact ⟨⟨ms, []⟩, (parse_eq_ok_iff hs).mpr hms, rfl⟩

/-- The tokens of a sum are derived with the product inside the sum. -/
theorem parse_iff_derived_sum : (∀ t ∈ (tokenize "1 + 2 * x").tokens, t.kind = .int →
    t.literal.length ≤ digitLimit) ∧
    ∃ n, IsTree .ranked (tokenize "1 + 2 * x").tokens n ∧ n.render = "(1 + (2 * x))" := by
  have hdigits : ∀ t ∈ (tokenize "1 + 2 * x").tokens, t.kind = .int →
      t.literal.length ≤ digitLimit := by decide
  obtain ⟨parsed, hp, herr, htext⟩ : ∃ parsed, parse "1 + 2 * x" = .ok parsed ∧
      parsed.errors = [] ∧ parsed.program.render = "(1 + (2 * x))" := ⟨_, rfl, rfl, rfl⟩
  refine ⟨hdigits, parsed.program, ?_, htext⟩
  exact ((parse_iff_derived hdigits).1 _).mp ⟨parsed, hp, herr, rfl⟩

end

end Grammar

end Simian
