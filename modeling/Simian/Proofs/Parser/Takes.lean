import Simian.Proofs.Parser.Motion

/-!
# The tokens that a rule takes

A rule is entered with its first token current and left with its last one current. `Takes s ts t`
says that `ts` are the tokens from the current one of `s` to the current one of `t`; they all lie
before the end. `Passes s ts t` says the same of a stretch, possibly empty, that is left with the
token behind it current. Both are determined by `s` and `ts`, and both compose as the lists do.
-/

namespace Simian.ParserState

set_option autoImplicit false

structure Passes (s : ParserState) (ts : List Token) (t : ParserState) : Prop where
  isPrefix : ts <+: s.input.tokens
  eq : t = advance^[ts.length] s

structure Takes (s : ParserState) (ts : List Token) (t : ParserState) : Prop where
  ne_nil : ts ≠ []
  isPrefix : ts <+: s.input.tokens
  eq : t = advance^[ts.length - 1] s

section
variable {s t u : ParserState} {ts us : List Token} {a : Token}

theorem Passes.nil (s : ParserState) : Passes s [] s := ⟨List.nil_prefix, rfl⟩

theorem Passes.tokens (h : Passes s ts t) : s.input.tokens = ts ++ t.input.tokens := by
  obtain ⟨⟨rest, hrest⟩, rfl⟩ := h
  rw [iterate_advance_tokens, ← hrest, List.drop_left]

theorem Passes.reaches (h : Passes s ts t) : Reaches s t := ⟨_, h.eq⟩

theorem Takes.reaches (h : Takes s ts t) : Reaches s t := ⟨_, h.eq⟩

theorem Passes.trans (hst : Passes s ts t) (htu : Passes t us u) : Passes s (ts ++ us) u := by
  constructor
  · rw [hst.tokens, htu.tokens, ← List.append_assoc]
    exact List.prefix_append _ _
  · rw [htu.eq, hst.eq, List.length_append, Nat.add_comm, Function.iterate_add_apply]

theorem Takes.passes (h : Takes s ts t) : Passes s ts t.advance := by
  refine ⟨h.isPrefix, ?_⟩
  have hpos := List.length_pos_iff.mpr h.ne_nil
  rw [h.eq, ← Function.iterate_succ_apply' advance, Nat.succ_eq_add_one, Nat.sub_add_cancel hpos]

theorem Passes.takes (hst : Passes s ts t) (htu : Takes t us u) : Takes s (ts ++ us) u := by
  have hpos := List.length_pos_iff.mpr htu.ne_nil
  refine ⟨by simp [htu.ne_nil], (hst.trans htu.passes).isPrefix, ?_⟩
  rw [htu.eq, hst.eq, ← Function.iterate_add_apply, List.length_append]
  congr 1
  omega

theorem Takes.append (hst : Takes s ts t) (htu : Takes t.advance us u) : Takes s (ts ++ us) u :=
  hst.passes.takes htu

theorem Takes.single (hs : s.Ends) (h : s.input.cur.kind ≠ .eof) : Takes s [s.input.cur] s := by
  refine ⟨by simp, ?_, rfl⟩
  have hpos := left_pos_of_cur hs h
  obtain ⟨⟨tokens, eof⟩, depth, errors⟩ := s
  cases tokens with
  | nil => exact absurd hpos (Nat.lt_irrefl 0)
  | cons x rest => exact List.cons_prefix_cons.mpr ⟨rfl, List.nil_prefix⟩

theorem Takes.of_cur {k : Kind} (hs : s.Ends) (h : s.input.cur.kind = k) (hk : k ≠ .eof) :
    Takes s [s.input.cur] s := .single hs (h ▸ hk)

theorem Takes.of_peek {k : Kind} (hs : s.Ends) (h : s.input.peek.kind = k) (hk : k ≠ .eof) :
    Takes s.advance [s.input.peek] s.advance := by
  have hc : s.advance.input.cur = s.input.peek := TokenStream.cur_next s.input
  have hn := Takes.of_cur (s := s.advance) (k := k) hs.advance (hc ▸ h) hk
  rwa [hc] at hn

theorem Passes.cur (h : Passes s ts t) (hts : ts = a :: us) : s.input.cur = a := by
  subst hts
  exact cur_of_cons h.tokens

theorem Takes.cur (h : Takes s (a :: us) t) : s.input.cur = a := h.passes.cur rfl

theorem Passes.uncons (h : Passes s (a :: us) u) : s.input.cur = a ∧ Passes s.advance us u := by
  refine ⟨h.cur rfl, ?_, ?_⟩
  · have hp := h.isPrefix
    obtain ⟨rest, hrest⟩ := hp
    rw [advance_input, TokenStream.next_tokens, ← hrest]
    exact List.prefix_append us rest
  · rw [h.eq, List.length_cons, Function.iterate_succ_apply]

theorem Takes.split (h : Takes s (ts ++ us) u) (hts : ts ≠ []) (hus : us ≠ []) :
    ∃ t, Takes s ts t ∧ Takes t.advance us u := by
  have hst : Takes s ts (advance^[ts.length - 1] s) :=
    ⟨hts, (List.prefix_append ts us).trans h.isPrefix, rfl⟩
  refine ⟨_, hst, hus, ?_, ?_⟩
  · have hp := h.isPrefix
    rw [hst.passes.tokens] at hp
    exact (List.prefix_append_right_inj ts).mp hp
  · have hpos := List.length_pos_iff.mpr hus
    rw [hst.passes.eq, ← Function.iterate_add_apply, h.eq, List.length_append]
    congr 1
    omega

theorem Passes.split (h : Passes s (ts ++ us) u) (hts : ts ≠ []) :
    ∃ t, Takes s ts t ∧ Passes t.advance us u := by
  have hst : Takes s ts (advance^[ts.length - 1] s) :=
    ⟨hts, (List.prefix_append ts us).trans h.isPrefix, rfl⟩
  refine ⟨_, hst, ?_, ?_⟩
  · have hp := h.isPrefix
    rw [hst.passes.tokens] at hp
    exact (List.prefix_append_right_inj ts).mp hp
  · rw [hst.passes.eq, ← Function.iterate_add_apply, h.eq, List.length_append, Nat.add_comm]

theorem Takes.uncons (h : Takes s (a :: us) u) (hus : us ≠ []) :
    s.input.cur = a ∧ Takes s.advance us u := by
  have ha : Takes s ([a] ++ us) u := h
  obtain ⟨t, hst, htu⟩ := ha.split (List.cons_ne_nil a []) hus
  obtain rfl : t = s := hst.eq
  exact ⟨h.cur, htu⟩

/-- The last token of a stretch is current at its end. -/
theorem Takes.snoc (h : Takes s (ts ++ [a]) t) : Passes s ts t ∧ t.input.cur = a := by
  have hts : Passes s ts (advance^[ts.length] s) :=
    ⟨(List.prefix_append ts [a]).trans h.isPrefix, rfl⟩
  have heq : t = advance^[ts.length] s := by
    rw [h.eq, List.length_append, List.length_singleton, Nat.add_sub_cancel]
  have hp := h.isPrefix
  rw [hts.tokens, ← heq] at hp
  obtain ⟨rest, hrest⟩ := (List.prefix_append_right_inj ts).mp hp
  exact ⟨heq ▸ hts, cur_of_cons hrest.symm⟩

theorem Takes.init (h : Takes s (ts ++ [a]) u) (hts : ts ≠ []) :
    ∃ t, Takes s ts t ∧ t.input.peek = a ∧ u = t.advance := by
  obtain ⟨t, hst, htu⟩ := h.split hts (List.cons_ne_nil a [])
  refine ⟨t, hst, ?_, htu.eq⟩
  rw [← advance_cur, htu.cur]

theorem Takes.peek (h : Takes s (ts ++ a :: us) u) (hts : ts ≠ []) :
    ∃ t, Takes s ts t ∧ t.input.peek = a ∧ Takes t.advance (a :: us) u := by
  obtain ⟨t, hst, htu⟩ := h.split hts (List.cons_ne_nil a us)
  refine ⟨t, hst, ?_, htu⟩
  rw [← advance_cur, htu.cur]

theorem Takes.eq_of_single (h : Takes s [a] t) : t = s := h.eq

theorem Passes.left_eq (h : Passes s ts t) : s.left = ts.length + t.left := by
  rw [left, h.tokens, List.length_append]
  rfl

theorem Takes.left_eq (h : Takes s ts t) : s.left = ts.length + t.advance.left :=
  h.passes.left_eq

theorem Takes.subset (h : Takes s ts t) : ts ⊆ s.input.tokens := h.isPrefix.subset

end

end Simian.ParserState
