import Simian.Proofs.Pieces

/-!
# Sources as rows of tokens

What a source is made of, said without reading it: tokens with blanks before, between and behind
them, each as long as its kind allows where it stands. A source is such a row in one way only, and
its tokens are that row.
-/

namespace Simian

open Text
set_option autoImplicit false

/-- The characters that are tokens by themselves. -/
def marks : List Char :=
  ['=', '+', '-', '!', '*', '/', '<', '>', ',', ';', '(', ')', '\x7b', '\x7d', '[', ']']

/-- The kinds that are spelled in one way only, keywords apart. -/
def symbols : List Kind :=
  [.assign, .plus, .minus, .bang, .asterisk, .slash, .lt, .gt, .comma, .semicolon, .lparen,
    .rparen, .lbrace, .rbrace, .lbracket, .rbracket, .eq, .notEq]

/-- What a token takes from the source: its literal, and the marks around that of a string. -/
def rawText (k : Kind) (literal : List Char) : List Char :=
  if k = .string then '\x22' :: literal ++ ['\x22'] else literal

/-- What follows does not go on with a character of the class. -/
def Stops (p : Char → Bool) (rest : List Char) : Prop := ∀ c ∈ rest.head?, p c = false

/-- Before `rest` a token of kind `k` with the literal can stand, and none that is longer. -/
inductive Longest : Kind → List Char → List Char → Prop where
  | keyword {k : Kind} {letters rest : List Char} : (String.ofList letters, k) ∈ keywords →
      Stops isLetter rest → Longest k letters rest
  | name {letters rest : List Char} : letters ≠ [] → (∀ c ∈ letters, isLetter c = true) →
      (∀ k, (String.ofList letters, k) ∉ keywords) → Stops isLetter rest →
      Longest .ident letters rest
  | number {digits rest : List Char} : digits ≠ [] → (∀ c ∈ digits, isDigit c = true) →
      Stops isDigit rest → Longest .int digits rest
  | string {body rest : List Char} : '\x22' ∉ body → Longest .string body rest
  | symbol {k : Kind} {rest : List Char} : k ∈ symbols →
      (k = .assign ∨ k = .bang → NoEquals rest) → Longest k k.text.toList rest
  /-- A character with which nothing starts. -/
  | stray {c : Char} {rest : List Char} : isBlank c = false → isLetter c = false →
      isDigit c = false → c ≠ '\x22' → c ∉ marks → Longest .illegal [c] rest
  /-- A string that is never closed. -/
  | unclosed {body : List Char} : '\x22' ∉ body → Longest .illegal ('\x22' :: body) []

/-- The source is a row of tokens, each given by its kind and literal, with blanks around them. -/
inductive Segmented : List Char → List (Kind × List Char) → Prop where
  | blank {gap : List Char} : (∀ c ∈ gap, isBlank c = true) → Segmented gap []
  | token {gap literal rest : List Char} {k : Kind} {row : List (Kind × List Char)} :
      (∀ c ∈ gap, isBlank c = true) → Longest k literal rest → Segmented rest row →
      Segmented (gap ++ (rawText k literal ++ rest)) ((k, literal) :: row)

/-! ## What stands before a rest -/

theorem rawText_of_ne {k : Kind} {literal : List Char} (h : k ≠ .string) :
    rawText k literal = literal := if_neg h

theorem rawText_string (literal : List Char) :
    rawText .string literal = '\x22' :: literal ++ ['\x22'] := rfl

theorem keyword_letters : ∀ p ∈ keywords, p.1.toList ≠ [] ∧ p.1.toList.all isLetter = true := by
  decide

theorem keyword_kind : ∀ p ∈ keywords, Kind.ofWord p.1 = p.2 ∧ p.2 ≠ .string := by decide

theorem ofWord_of_not_keyword {word : String} (h : ∀ k, (word, k) ∉ keywords) :
    Kind.ofWord word = .ident := by
  unfold Kind.ofWord
  cases hk : keywords.lookup word with
  | none => rfl
  | some k => exact absurd (Assoc.mem_of_lookup hk) (h k)

/-- A token of this kind and literal is what is read where `text` starts. -/
def ReadFirst (k : Kind) (literal text : List Char) : Prop :=
  ∃ x xs, text = x :: xs ∧ isBlank x = false ∧
    Lexeme.first x xs = ⟨k, literal, (rawText k literal).length⟩

theorem readFirst_word {letters rest : List Char} (hne : letters ≠ [])
    (h : ∀ c ∈ letters, isLetter c = true) (hr : Stops isLetter rest)
    (hk : Kind.ofWord (String.ofList letters) ≠ .string) :
    ReadFirst (Kind.ofWord (String.ofList letters)) letters (letters ++ rest) := by
  obtain ⟨x, xs, rfl⟩ := List.exists_cons_of_ne_nil hne
  have hx := h x List.mem_cons_self
  refine ⟨x, xs ++ rest, rfl, not_isBlank (.inl hx), ?_⟩
  rw [Lexeme.first, if_pos hx, takeWhile_run (fun c hc => h c (List.mem_cons_of_mem x hc)) hr,
    rawText_of_ne hk]
  rfl

theorem readFirst_number {digits rest : List Char} (hne : digits ≠ [])
    (h : ∀ c ∈ digits, isDigit c = true) (hr : Stops isDigit rest) :
    ReadFirst .int digits (digits ++ rest) := by
  obtain ⟨x, xs, rfl⟩ := List.exists_cons_of_ne_nil hne
  have hx := h x List.mem_cons_self
  refine ⟨x, xs ++ rest, rfl, not_isBlank (.inr hx), ?_⟩
  rw [Lexeme.first, if_neg (Bool.eq_false_iff.mp (isDigit_not_isLetter hx)), if_pos hx,
    takeWhile_run (fun c hc => h c (List.mem_cons_of_mem x hc)) hr]
  rfl

theorem first_quotation (rest : List Char) : Lexeme.first '\x22' rest = Lexeme.quotation rest := rfl

theorem ne_mark_of_not_mem {body : List Char} (h : '\x22' ∉ body) :
    ∀ c ∈ body, (c != '\x22') = true := by
  intro c hc
  rw [bne_iff_ne]
  rintro rfl
  exact h hc

theorem readFirst_string {body : List Char} (rest : List Char) (h : '\x22' ∉ body) :
    ReadFirst .string body (rawText .string body ++ rest) := by
  refine ⟨'\x22', body ++ '\x22' :: rest, by simp [rawText_string], rfl, ?_⟩
  have hrun : (body ++ '\x22' :: rest).takeWhile (· != '\x22') = body :=
    takeWhile_run (ne_mark_of_not_mem h) (by simp)
  simp [first_quotation, Lexeme.quotation, hrun, rawText_string]

theorem readFirst_unclosed {body : List Char} (h : '\x22' ∉ body) :
    ReadFirst .illegal ('\x22' :: body) ('\x22' :: body) := by
  refine ⟨'\x22', body, rfl, rfl, ?_⟩
  have hrun : body.takeWhile (· != '\x22') = body :=
    List.takeWhile_eq_self_iff.mpr (ne_mark_of_not_mem h)
  simp [first_quotation, Lexeme.quotation, hrun, rawText]

theorem single_eq_none {c : Char} (h : c ∉ marks) : Lexeme.single c = none := by
  unfold Lexeme.single
  split <;> first | rfl | exact absurd (by decide) h

theorem readFirst_stray {c : Char} (rest : List Char) (hb : isBlank c = false)
    (hl : isLetter c = false) (hd : isDigit c = false) (hq : c ≠ '\x22') (hm : c ∉ marks) :
    ReadFirst .illegal [c] (c :: rest) := by
  have hpair : Lexeme.pair c rest.head? = none := by
    unfold Lexeme.pair
    split <;> first | rfl | exact absurd (by decide) hm
  refine ⟨c, rest, rfl, hb, ?_⟩
  simp [Lexeme.first, hl, hd, hq, Lexeme.operator, hpair, single_eq_none hm, rawText]

theorem readFirst_symbol {k : Kind} {rest : List Char} (hk : k ∈ symbols)
    (h : k = .assign ∨ k = .bang → NoEquals rest) :
    ReadFirst k k.text.toList (k.text.toList ++ rest) := by
  cases k with
  | assign => exact ⟨'=', rest, rfl, rfl, first_of_noEquals (.inl rfl) (h (.inl rfl))⟩
  | bang => exact ⟨'!', rest, rfl, rfl, first_of_noEquals (.inr rfl) (h (.inr rfl))⟩
  | plus | minus | asterisk | slash | lt | gt | eq | notEq | comma | semicolon | lparen | rparen
  | lbrace | rbrace | lbracket | rbracket => exact ⟨_, _, rfl, rfl, rfl⟩
  | _ => exact absurd hk (by decide)

theorem symbols_ne_string : ∀ k ∈ symbols, k ≠ .string := by decide

theorem Longest.readFirst {k : Kind} {literal rest : List Char} (h : Longest k literal rest) :
    ReadFirst k literal (rawText k literal ++ rest) := by
  cases h with
  | keyword hmem hr =>
    obtain ⟨hne, hall⟩ := keyword_letters _ hmem
    obtain ⟨hkind, hk⟩ := keyword_kind _ hmem
    rw [String.toList_ofList] at hne hall
    have hword := readFirst_word hne (List.all_eq_true.mp hall) hr (hkind.symm ▸ hk)
    rw [hkind] at hword
    rwa [rawText_of_ne hk]
  | name hne hall hmem hr =>
    have hkind := ofWord_of_not_keyword hmem
    have hword := readFirst_word hne hall hr (hkind ▸ by decide)
    rwa [hkind] at hword
  | number hne hall hr => exact readFirst_number hne hall hr
  | string hq => exact readFirst_string rest hq
  | symbol hk hr =>
    rw [rawText_of_ne (symbols_ne_string k hk)]
    exact readFirst_symbol hk hr
  | stray hb hl hd hq hm => exact readFirst_stray rest hb hl hd hq hm
  | unclosed hq =>
    rw [List.append_nil]
    exact readFirst_unclosed hq

/-! ## What a text starts with -/

theorem stops_dropWhile (p : Char → Bool) (cs : List Char) : Stops p (cs.dropWhile p) := by
  intro c hc
  rw [← List.find?_not_eq_head?_dropWhile] at hc
  simpa using List.find?_some hc

/-- The longest run of a class at the start of a text. -/
theorem exists_run {p : Char → Bool} {c : Char} (cs : List Char) (h : p c = true) :
    ∃ run rest, c :: cs = run ++ rest ∧ run ≠ [] ∧ (∀ x ∈ run, p x = true) ∧ Stops p rest := by
  refine ⟨c :: cs.takeWhile p, cs.dropWhile p, ?_, List.cons_ne_nil _ _, fun x hx => ?_,
    stops_dropWhile p cs⟩
  · rw [List.cons_append, List.takeWhile_append_dropWhile]
  · rcases List.mem_cons.mp hx with rfl | hx
    · exact h
    · exact List.mem_takeWhile_imp hx

/-- The text starts with a token that is as long as its kind allows there. -/
def StartsLongest (text : List Char) : Prop :=
  ∃ k literal rest, text = rawText k literal ++ rest ∧ Longest k literal rest

theorem startsLongest_letter {c : Char} (cs : List Char) (h : isLetter c = true) :
    StartsLongest (c :: cs) := by
  obtain ⟨letters, rest, hsplit, hne, hall, hstops⟩ := exists_run cs h
  by_cases hk : ∃ k, (String.ofList letters, k) ∈ keywords
  · obtain ⟨k, hmem⟩ := hk
    refine ⟨k, letters, rest, ?_, .keyword hmem hstops⟩
    rwa [rawText_of_ne (keyword_kind _ hmem).2]
  · exact ⟨.ident, letters, rest, hsplit, .name hne hall (fun k hmem => hk ⟨k, hmem⟩) hstops⟩

theorem startsLongest_digit {c : Char} (cs : List Char) (h : isDigit c = true) :
    StartsLongest (c :: cs) := by
  obtain ⟨digits, rest, hsplit, hne, hall, hstops⟩ := exists_run cs h
  exact ⟨.int, digits, rest, hsplit, .number hne hall hstops⟩

theorem startsLongest_quotation (cs : List Char) : StartsLongest ('\x22' :: cs) := by
  by_cases hq : '\x22' ∈ cs
  · obtain ⟨body, rest, rfl, hbody⟩ := List.eq_append_cons_of_mem hq
    exact ⟨.string, body, rest, by simp [rawText_string], .string hbody⟩
  · exact ⟨.illegal, '\x22' :: cs, [], by simp [rawText], .unclosed hq⟩

theorem single_eq_some {c : Char} {k : Kind} (h : Lexeme.single c = some k) :
    k ∈ symbols ∧ k.text.toList = [c] := by
  unfold Lexeme.single at h
  split at h <;> cases h <;> exact ⟨by decide, rfl⟩

theorem exists_symbol {c : Char} (h : c ∈ marks) : ∃ k ∈ symbols, k.text.toList = [c] := by
  have hall : marks.all (fun c => (Lexeme.single c).isSome) = true := by decide
  obtain ⟨k, hk⟩ := Option.isSome_iff_exists.mp (List.all_eq_true.mp hall c h)
  exact ⟨k, single_eq_some hk⟩

theorem startsLongest_symbol {k : Kind} {rest : List Char} (hk : k ∈ symbols)
    (h : k = .assign ∨ k = .bang → NoEquals rest) : StartsLongest (k.text.toList ++ rest) := by
  refine ⟨k, k.text.toList, rest, ?_, .symbol hk h⟩
  rw [rawText_of_ne (symbols_ne_string k hk)]

theorem startsLongest_mark {c : Char} (cs : List Char) (h : c ∈ marks) :
    StartsLongest (c :: cs) := by
  obtain ⟨k, hk, htext⟩ := exists_symbol h
  by_cases hn : NoEquals cs
  · have hstart : StartsLongest (_ ++ cs) := startsLongest_symbol hk fun _ => hn
    rwa [htext] at hstart
  · obtain ⟨rest, rfl⟩ : ∃ rest, cs = '=' :: rest := by
      simp only [NoEquals, Option.mem_def, ne_eq, not_forall, not_not] at hn
      obtain ⟨x, hx, rfl⟩ := hn
      exact List.head?_eq_some_iff.mp hx
    by_cases hshort : k = .assign ∨ k = .bang
    · -- The mark and the `=` behind it are one operator.
      rcases hshort with rfl | rfl
      · change ['='] = [c] at htext
        cases htext
        exact startsLongest_symbol (k := .eq) (by decide) fun he => absurd he (by decide)
      · change ['!'] = [c] at htext
        cases htext
        exact startsLongest_symbol (k := .notEq) (by decide) fun he => absurd he (by decide)
    · have hstart : StartsLongest (_ ++ '=' :: rest) :=
        startsLongest_symbol hk fun he => absurd he hshort
      rwa [htext] at hstart

theorem startsLongest {c : Char} (cs : List Char) (hb : isBlank c = false) :
    StartsLongest (c :: cs) := by
  by_cases hl : isLetter c = true
  · exact startsLongest_letter cs hl
  · by_cases hd : isDigit c = true
    · exact startsLongest_digit cs hd
    · by_cases hq : c = '\x22'
      · exact hq ▸ startsLongest_quotation cs
      · by_cases hm : c ∈ marks
        · exact startsLongest_mark cs hm
        · exact ⟨.illegal, [c], cs, rfl, .stray hb (Bool.eq_false_iff.mpr hl)
            (Bool.eq_false_iff.mpr hd) hq hm⟩

/-! ## Rows -/

theorem rawText_ne_nil {k : Kind} {literal rest : List Char} (h : Longest k literal rest) :
    rawText k literal ≠ [] := by
  intro hnil
  obtain ⟨x, xs, -, -, hfirst⟩ := h.readFirst
  have hpos := Lexeme.first_width_pos x xs
  rw [hfirst, hnil] at hpos
  exact absurd hpos (Nat.lt_irrefl 0)

/-- Every text is a row of tokens. -/
theorem exists_segmented (text : List Char) : ∃ row, Segmented text row := by
  induction hn : text.length using Nat.strongRecOn generalizing text with
  | _ n ih =>
    have hgap : ∀ c ∈ text.takeWhile isBlank, isBlank c = true :=
      fun _ hc => List.mem_takeWhile_imp hc
    have hsplit := List.takeWhile_append_dropWhile (p := isBlank) (l := text)
    cases hdrop : text.dropWhile isBlank with
    | nil =>
      rw [hdrop, List.append_nil] at hsplit
      exact ⟨[], .blank (hsplit ▸ hgap)⟩
    | cons c cs =>
      have hb : isBlank c = false := stops_dropWhile isBlank text c (hdrop ▸ rfl)
      obtain ⟨k, literal, rest, htext, hlongest⟩ := startsLongest cs hb
      have hlt : rest.length < n := by
        have hpos := List.length_pos_iff.mpr (rawText_ne_nil hlongest)
        rw [← hn, ← hsplit, hdrop, htext, List.length_append, List.length_append]
        omega
      obtain ⟨row, hrow⟩ := ih rest.length hlt rest rfl
      refine ⟨(k, literal) :: row, ?_⟩
      have hseg := Segmented.token hgap hlongest hrow
      rwa [← htext, ← hdrop, hsplit] at hseg

/-- A token without its place. -/
def Token.bare (t : Token) : Kind × List Char := (t.kind, t.literal.toList)

theorem skipBlanks_gap {c : Cursor} {gap rest : List Char} (hc : c.rest = gap ++ rest)
    (hgap : ∀ x ∈ gap, isBlank x = true) : c.skipBlanks.rest = rest.dropWhile isBlank := by
  rw [Cursor.skipBlanks_rest, hc, List.dropWhile_append_of_pos hgap]

/-- A row that makes up what is left of a source is what is read from there. -/
theorem Segmented.row_eq {text : List Char} {row : List (Kind × List Char)}
    (h : Segmented text row) {c : Cursor} (hc : c.rest = text) :
    row = c.stream.tokens.map Token.bare := by
  induction h generalizing c with
  | blank hgap =>
    have hend : c.skipBlanks.rest = [] := by
      rw [Cursor.skipBlanks_rest, hc]
      exact List.dropWhile_eq_nil_iff.mpr hgap
    rw [Cursor.stream_of_eof (Cursor.next_kind_eof_iff.mpr hend)]
    rfl
  | @token gap literal rest k row hgap hlongest _ ih =>
    obtain ⟨x, xs, htext, hx, hfirst⟩ := hlongest.readFirst
    have hskip : c.skipBlanks.rest = x :: xs := by
      rw [skipBlanks_gap hc hgap, htext, List.dropWhile_cons_of_neg (by simp [hx])]
    have hnext := Cursor.next_of_cons hskip
    rw [hfirst] at hnext
    have hk : c.next.1.kind ≠ .eof := by
      intro he
      rw [Cursor.next_kind_eof_iff.mp he] at hskip
      cases hskip
    have hrest : c.next.2.rest = rest := by
      rw [hnext, Cursor.advance_rest, hskip, ← htext]
      exact List.drop_left
    rw [Cursor.stream_of_token hk, List.map_cons, ← ih hrest, hnext, Token.bare,
      String.toList_ofList]

/-- A source is a row of longest tokens in one way only, and that row is its tokens up to the first
end token. -/
theorem segmented_iff (source : String) : (tokenize source).eof.kind = .eof ∧
    ∀ row, Segmented source.toList row ↔ row = (tokenize source).tokens.map Token.bare := by
  refine ⟨(tokenize_spelled source).1, fun row => ⟨fun h => h.row_eq rfl, ?_⟩⟩
  rintro rfl
  obtain ⟨row, hrow⟩ := exists_segmented source.toList
  rwa [hrow.row_eq (c := Cursor.start source) rfl] at hrow

example : (tokenize "===x1\x22").tokens.map Token.bare =
    [(.eq, ['=', '=']), (.assign, ['=']), (.ident, ['x']), (.int, ['1']),
      (.illegal, ['\x22'])] := by
  decide

end Simian
