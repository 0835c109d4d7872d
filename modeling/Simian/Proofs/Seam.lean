import Simian.Proofs.Grammar.Exact
import Simian.Proofs.Grammar.Joining
import Simian.Proofs.Segmentation

/-!
# Two sources put together

A source without syntax errors leaves nothing open at its end. With a semicolon and a second such
source behind it, its tokens stay as they are, those of the second source are the same at other
places, and the whole parses to the statements of the one followed by those of the other. Blanks
behind a source change nothing.
-/

namespace Simian

open Text Grammar
set_option autoImplicit false

/-! ## Places -/

/-- The place behind a text that starts at `p`. -/
def Position.behind (p : Position) (text : List Char) : Position := text.foldl Position.after p

/-- The place `q` of a text, when the text starts at `p`. -/
def Position.moved (p q : Position) : Position :=
  ⟨p.line + q.line - 1, if q.line = 1 then p.column + q.column - 1 else q.column⟩

theorem Position.moved_after (p : Position) {q : Position} (h : 1 ≤ q.line) (c : Char) :
    (p.moved q).after c = p.moved (q.after c) := by
  unfold Position.after Position.moved
  split
  · have hline : q.line + 1 ≠ 1 := by omega
    simp only [hline, if_false, Position.mk.injEq, and_true]
    omega
  · split
    · simp only [Position.mk.injEq, true_and]
      omega
    · rfl

theorem Position.one_le_after {q : Position} (h : 1 ≤ q.line) (c : Char) :
    1 ≤ (q.after c).line := by
  unfold Position.after
  split
  · exact Int.le_add_one h
  · exact h

theorem Position.moved_start (p : Position) : p.moved ⟨1, 1⟩ = p := by
  simp [Position.moved]

/-- A token of a text that starts at `p`. -/
def Token.moved (p : Position) (t : Token) : Token := ⟨t.kind, t.literal, p.moved t.position⟩

theorem Token.keeping_moved (p : Position) : Keeping (Token.moved p) := fun _ => ⟨rfl, rfl⟩

namespace Cursor

/-- The second cursor is the first one in a text that starts at `p`. -/
structure Moved (p : Position) (c d : Cursor) : Prop where
  rest : d.rest = c.rest
  line : 1 ≤ c.position.line
  position : d.position = p.moved c.position

section
variable {p : Position} {c d : Cursor}

theorem Moved.advance (h : Moved p c d) (n : Nat) : Moved p (advance n c) (advance n d) := by
  induction n generalizing c d with
  | zero => exact h
  | succ n ih =>
    obtain ⟨rest, offset, q⟩ := c
    obtain ⟨rest', offset', q'⟩ := d
    obtain ⟨hrest, hline, hq⟩ := h
    obtain rfl : rest' = rest := hrest
    obtain rfl : q' = p.moved q := hq
    cases rest' with
    | nil =>
      rw [advance_end, advance_end]
      exact ⟨rfl, hline, rfl⟩
    | cons x rest =>
      exact ih ⟨rfl, Position.one_le_after hline x, Position.moved_after p hline x⟩

theorem Moved.skipBlanks (h : Moved p c d) : Moved p c.skipBlanks d.skipBlanks := by
  rw [Cursor.skipBlanks, Cursor.skipBlanks, h.rest]
  exact h.advance _

theorem Moved.next (h : Moved p c d) :
    d.next.1 = c.next.1.moved p ∧ Moved p c.next.2 d.next.2 := by
  have hs := h.skipBlanks
  cases hr : c.skipBlanks.rest with
  | nil =>
    rw [next_of_nil hr, next_of_nil (hs.rest.trans hr), hs.position]
    exact ⟨rfl, hs⟩
  | cons x rest =>
    rw [next_of_cons hr, next_of_cons (hs.rest.trans hr), hs.position]
    exact ⟨rfl, hs.advance _⟩

theorem Moved.tokens (h : Moved p c d) :
    d.stream.tokens = c.stream.tokens.map (Token.moved p) := by
  induction hn : c.rest.length using Nat.strongRecOn generalizing c d with
  | _ n ih =>
    obtain ⟨htoken, hnext⟩ := h.next
    have hkind : d.next.1.kind = c.next.1.kind := by
      rw [htoken]
      rfl
    by_cases hk : c.next.1.kind = .eof
    · rw [stream_of_eof hk, stream_of_eof (hkind.trans hk)]
      rfl
    · rw [stream_of_token hk, stream_of_token (hkind ▸ hk), List.map_cons, htoken,
        ih _ (hn ▸ rest_lt_of_kind hk) hnext rfl]

end

/-! ## The first source -/

theorem stream_of_gap {c : Cursor} {gap rest : List Char} (hc : c.rest = gap ++ rest)
    (hgap : ∀ x ∈ gap, isBlank x = true) : c.stream = (advance gap.length c).stream := by
  induction gap generalizing c with
  | nil => rfl
  | cons x gap ih =>
    have hrest : (advance 1 c).rest = gap ++ rest := by
      rw [advance_rest, hc]
      rfl
    rw [stream_of_blank hc (hgap x List.mem_cons_self),
      ih hrest fun y hy => hgap y (List.mem_cons_of_mem x hy), advance_advance, List.length_cons,
      Nat.add_comm]

theorem advance_past {c : Cursor} {gap raw rest : List Char} (hc : c.rest = gap ++ (raw ++ rest)) :
    (advance (gap ++ raw).length c).rest = rest := by
  rw [advance_rest, hc, ← List.append_assoc, List.drop_left]

theorem advance_same {c d : Cursor} {gap raw rest rest' : List Char}
    (hc : c.rest = gap ++ (raw ++ rest)) (hd : d.rest = gap ++ (raw ++ rest'))
    (hp : c.position = d.position) :
    (advance (gap ++ raw).length c).position = (advance (gap ++ raw).length d).position := by
  rw [advance_position, advance_position, hc, hd, hp, ← List.append_assoc, ← List.append_assoc,
    List.take_left, List.take_left]

/-- What is read where blanks and a longest token stand. -/
theorem next_of_longest {c : Cursor} {k : Kind} {gap literal rest : List Char}
    (hc : c.rest = gap ++ (rawText k literal ++ rest)) (hgap : ∀ x ∈ gap, isBlank x = true)
    (h : Longest k literal rest) :
    c.next = (⟨k, String.ofList literal, c.position.behind gap⟩,
      advance (gap ++ rawText k literal).length c) := by
  obtain ⟨x, xs, htext, hx, hfirst⟩ := h.readFirst
  rw [htext] at hc
  have hrun : c.rest.takeWhile isBlank = gap := by
    rw [hc]
    refine takeWhile_run hgap fun y hy => ?_
    cases hy
    exact hx
  have hskip : c.skipBlanks = advance gap.length c := by rw [Cursor.skipBlanks, hrun]
  have hrest : c.skipBlanks.rest = x :: xs := by
    rw [hskip, advance_rest, hc, List.drop_left]
  have hposition : c.skipBlanks.position = c.position.behind gap := by
    rw [hskip, advance_position, hc, List.take_left]
    rfl
  rw [next_of_cons hrest, hfirst, hposition, hskip, advance_advance, List.length_append]

end Cursor

theorem Stops.append {p : Char → Bool} {rest tail : List Char} (h : Stops p rest)
    (ht : Stops p tail) : Stops p (rest ++ tail) := by
  cases rest with
  | nil => exact ht
  | cons => exact h

/-- A token that is as long as its kind allows is so with more text behind it that does not run into
it, unless it is illegal and takes all that is left. -/
theorem Longest.append {k : Kind} {literal rest tail : List Char} (h : Longest k literal rest)
    (hk : k ≠ .illegal) (ht : Apart tail) : Longest k literal (rest ++ tail) := by
  have hletter : Stops isLetter tail := fun c hc => (ht c hc).1
  have hdigit : Stops isDigit tail := fun c hc => (ht c hc).2.1
  cases h with
  | keyword hmem hr => exact .keyword hmem (hr.append hletter)
  | name hne hall hmem hr => exact .name hne hall hmem (hr.append hletter)
  | number hne hall hr => exact .number hne hall (hr.append hdigit)
  | string hq => exact .string hq
  | symbol hmem hr =>
    refine .symbol hmem fun hshort => ?_
    cases rest with
    | nil => exact ht.noEquals
    | cons => exact hr hshort
  | stray => exact absurd rfl hk
  | unclosed => exact absurd rfl hk

/-- The tokens of a text without illegal ones are the first of those of a longer text. -/
theorem Segmented.tokens_append {text tail : List Char} {row : List (Kind × List Char)}
    (h : Segmented text row) (hrow : ∀ entry ∈ row, entry.1 ≠ .illegal) (ht : Apart tail)
    {c d : Cursor} (hc : c.rest = text) (hd : d.rest = text ++ tail) (hp : c.position = d.position) :
    d.stream.tokens = c.stream.tokens ++ (Cursor.advance text.length d).stream.tokens := by
  induction h generalizing c d with
  | @blank gap hgap =>
    have hend : c.skipBlanks.rest = [] := by
      rw [Cursor.skipBlanks_rest, hc]
      exact List.dropWhile_eq_nil_iff.mpr hgap
    rw [Cursor.stream_of_eof (Cursor.next_kind_eof_iff.mpr hend), Cursor.stream_of_gap hd hgap]
    rfl
  | @token gap literal rest k row hgap hlongest _ ih =>
    obtain ⟨hk, hrow⟩ := List.forall_mem_cons.mp hrow
    have hd' : d.rest = gap ++ (rawText k literal ++ (rest ++ tail)) := by
      rw [hd, List.append_assoc, List.append_assoc]
    have hc' := Cursor.next_of_longest hc hgap hlongest
    have hnext := Cursor.next_of_longest hd' hgap (hlongest.append hk ht)
    have hne (e : Cursor) (he : e.next.1.kind = k) : e.next.1.kind ≠ .eof := by
      obtain ⟨x, xs, -, -, hfirst⟩ := hlongest.readFirst
      have hspelled := (Lexeme.first_spelled x xs).ne_eof
      rw [hfirst] at hspelled
      exact he ▸ hspelled
    have hrest := ih hrow (Cursor.advance_past hc) (Cursor.advance_past hd')
      (Cursor.advance_same hc hd' hp)
    rw [Cursor.advance_advance, ← List.length_append, List.append_assoc] at hrest
    rw [Cursor.stream_of_token (hne d (by rw [hnext])), Cursor.stream_of_token (hne c (by rw [hc'])),
      hnext, hc', hp, List.cons_append, hrest]

theorem tokens_append_of_legal {source : String} {tail : List Char}
    (h : ∀ t ∈ (tokenize source).tokens, t.kind ≠ .illegal) (ht : Apart tail) :
    (tokenize (source ++ String.ofList tail)).tokens = (tokenize source).tokens ++
      (Cursor.advance source.toList.length
        (Cursor.start (source ++ String.ofList tail))).stream.tokens := by
  have htext : (source ++ String.ofList tail).toList = source.toList ++ tail := by simp
  obtain ⟨row, hrow⟩ := exists_segmented source.toList
  have hlegal : ∀ entry ∈ row, entry.1 ≠ .illegal := by
    intro entry hentry
    rw [hrow.row_eq (c := Cursor.start source) rfl] at hentry
    obtain ⟨t, ht, rfl⟩ := List.mem_map.mp hentry
    exact h t ht
  exact hrow.tokens_append hlegal ht (c := Cursor.start source)
    (d := Cursor.start (source ++ String.ofList tail)) rfl htext rfl

/-- The tokens of a source without illegal tokens, with a semicolon and a second source behind. -/
theorem tokenize_join {first : String} (second : String)
    (h : ∀ t ∈ (tokenize first).tokens, t.kind ≠ .illegal) :
    (tokenize (first ++ ";" ++ second)).tokens = (tokenize first).tokens ++
      ⟨.semicolon, ";", Position.behind ⟨1, 1⟩ first.toList⟩ ::
        (tokenize second).tokens.map
          (Token.moved (Position.behind ⟨1, 1⟩ (first ++ ";").toList)) := by
  have htext : (first ++ ";" ++ second).toList = first.toList ++ ';' :: second.toList := by simp
  have hapart : Apart (';' :: second.toList) := .of_cons (by decide)
  have hjoin := tokens_append_of_legal h hapart
  have hwhole : first ++ String.ofList (';' :: second.toList) = first ++ ";" ++ second :=
    String.toList_inj.mp (by rw [htext]; simp)
  rw [hwhole] at hjoin
  refine hjoin.trans (congrArg ((tokenize first).tokens ++ ·) ?_)
  -- The cursor stands before the semicolon now.
  generalize hd : Cursor.advance first.toList.length (Cursor.start (first ++ ";" ++ second)) = d
  have hrest : d.rest = [] ++ (rawText .semicolon [';'] ++ second.toList) := by
    rw [← hd, Cursor.advance_rest]
    change (first ++ ";" ++ second).toList.drop first.toList.length = _
    rw [htext, List.drop_left]
    rfl
  have hposition : d.position = Position.behind ⟨1, 1⟩ first.toList := by
    rw [← hd, Cursor.advance_position]
    change ((first ++ ";" ++ second).toList.take first.toList.length).foldl _ _ = _
    rw [htext, List.take_left]
    rfl
  have hlongest : Longest .semicolon [';'] second.toList := .symbol (k := .semicolon) (by decide)
    fun hshort => absurd hshort (by decide)
  have hnext := Cursor.next_of_longest hrest (fun _ hx => absurd hx List.not_mem_nil) hlongest
  have hmoved : Cursor.Moved (Position.behind ⟨1, 1⟩ (first ++ ";").toList) (Cursor.start second)
      (Cursor.advance 1 d) := by
    refine ⟨?_, Int.le_refl 1, ?_⟩
    · rw [Cursor.advance_rest, hrest]
      rfl
    · rw [Cursor.advance_position, hrest, hposition, String.toList_append, Position.behind,
        Position.behind, List.foldl_append]
      exact (Position.moved_start _).symm
  have hkind : d.next.1.kind ≠ .eof := by
    rw [hnext]
    exact Kind.noConfusion
  rw [Cursor.stream_of_token hkind, hnext]
  exact congrArg₂ List.cons (by rw [hposition]; rfl) hmoved.tokens

/-- Two sources that parse strictly parse so with a semicolon between them, to the statements of
the first and those of the second, whose tokens stand where the second source starts. -/
theorem parseStrict_join {first second : String} {p q : List Node}
    (hp : parseStrict first = .ok p) (hq : parseStrict second = .ok q) :
    parseStrict (first ++ ";" ++ second) = .ok (p ++ q.map
      (Node.mapTokens (Token.moved (Position.behind ⟨1, 1⟩ (first ++ ";").toList)))) := by
  rw [parseStrict_eq_ok_iff] at hp hq ⊢
  have hfirst := derived_of_parse hp
  have hsecond := derived_of_parse hq
  have hadmissible := hfirst.admissible (built_of_parse hp)
  have htokens := tokenize_join second fun t ht => (hadmissible t ht).1
  have hlegible : Legible (.ofStream (tokenize (first ++ ";" ++ second))) := by
    refine ⟨(tokenize_spelled _).1, fun t ht => ?_⟩
    change t ∈ (tokenize (first ++ ";" ++ second)).tokens at ht
    rw [htokens, List.mem_append, List.mem_cons, List.mem_map] at ht
    rcases ht with ht | rfl | ⟨u, hu, rfl⟩
    · exact (hadmissible t ht).2
    · exact fun hk => nomatch hk
    · exact (hsecond.admissible (built_of_parse hq) u hu).2
  rw [parse_eq_ok_iff hlegible, htokens]
  refine Statements.append ?_ (hsecond.mapTokens (Token.keeping_moved _)) hfirst
  rfl

theorem apart_of_blanks {blanks : List Char} (h : ∀ x ∈ blanks, isBlank x = true) :
    Apart blanks := by
  intro x hx
  have hblank := h x (List.mem_of_mem_head? hx)
  refine ⟨Bool.eq_false_iff.mpr fun hletter => ?_, Bool.eq_false_iff.mpr fun hdigit => ?_, ?_⟩
  · exact Bool.eq_false_iff.mp (not_isBlank (.inl hletter)) hblank
  · exact Bool.eq_false_iff.mp (not_isBlank (.inr hdigit)) hblank
  · rintro rfl
    cases hblank

/-- Blanks behind a source do not change its tokens. -/
theorem tokens_append_blanks {source : String} {blanks : List Char}
    (h : ∀ t ∈ (tokenize source).tokens, t.kind ≠ .illegal)
    (hblanks : ∀ x ∈ blanks, isBlank x = true) :
    (tokenize (source ++ String.ofList blanks)).tokens = (tokenize source).tokens := by
  rw [tokens_append_of_legal h (apart_of_blanks hblanks)]
  generalize hd : Cursor.advance _ _ = d
  have hrest : d.rest = blanks := by
    rw [← hd, Cursor.advance_rest]
    change (source ++ String.ofList blanks).toList.drop source.toList.length = _
    rw [String.toList_append, String.toList_ofList, List.drop_left]
  have hend : d.skipBlanks.rest = [] := by
    rw [Cursor.skipBlanks_rest, hrest]
    exact List.dropWhile_eq_nil_iff.mpr hblanks
  rw [Cursor.stream_of_eof (Cursor.next_kind_eof_iff.mpr hend), List.append_nil]

/-- Blanks behind a source that parses strictly do not change its statements. -/
theorem parseStrict_append_blanks {source : String} {p : List Node} {blanks : List Char}
    (hp : parseStrict source = .ok p) (hblanks : ∀ x ∈ blanks, isBlank x = true) :
    parseStrict (source ++ String.ofList blanks) = .ok p := by
  rw [parseStrict_eq_ok_iff] at hp ⊢
  have hderived := derived_of_parse hp
  have hadmissible := hderived.admissible (built_of_parse hp)
  have htokens := tokens_append_blanks (fun t ht => (hadmissible t ht).1) hblanks
  have hlegible : Legible (.ofStream (tokenize (source ++ String.ofList blanks))) := by
    refine ⟨(tokenize_spelled _).1, fun t ht => ?_⟩
    change t ∈ (tokenize (source ++ String.ofList blanks)).tokens at ht
    rw [htokens] at ht
    exact (hadmissible t ht).2
  rw [parse_eq_ok_iff hlegible, htokens]
  exact hderived

end Simian
