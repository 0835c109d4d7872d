import Simian.Proofs.Segmentation
import Mathlib.Data.List.DropRight

/-!
# Where a cursor stands

A cursor keeps count of lines and columns while it moves. Whatever is asked of it and in whatever
order, from inside a string or a word too, the count is what the text before the cursor says; a
token is handed out with the place of its first character; and a cursor that has handed out the
end token stays where it is.

One character is the step: it moves the place as the text says. All requests move by characters.
-/

namespace Simian

open Text
set_option autoImplicit false

/-! ## Places in a text -/

/-- The place in front of the character at `offset`: a line for each line feed before it, and a
column for each character behind the last of these. -/
def Position.ofOffset (source : List Char) (offset : Nat) : Position :=
  ⟨1 + (source.take offset).count '\n', 1 + ((source.take offset).rtakeWhile (· != '\n')).length⟩

theorem Position.ofOffset_succ {source rest : List Char} {c : Char} {offset : Nat}
    (h : source.drop offset = c :: rest) :
    ofOffset source (offset + 1) = (ofOffset source offset).after c := by
  have hc : source[offset]? = some c := by
    rw [← List.head?_drop, h]
    rfl
  have htake : source.take (offset + 1) = source.take offset ++ [c] := by
    rw [List.take_add_one, hc]
    rfl
  unfold ofOffset after
  rw [htake, List.count_append]
  by_cases hn : c = '\n'
  · subst hn
    rw [List.rtakeWhile_concat_neg _ _ _ (by decide), if_pos rfl]
    simp [Int.add_assoc]
  · rw [List.rtakeWhile_concat_pos _ _ _ (by simpa using hn), if_neg hn]
    simp [Int.add_assoc, hn]

/-- The token stands in the source at the offset `first`, with the offsets `low` and `high` around
it. An end token stands behind the last character. -/
structure Token.StandsAt (source : List Char) (low high first : Nat) (t : Token) : Prop where
  low_le : low ≤ first
  text : rawText t.kind t.literal.toList <+: source.drop first
  le_high : first + (rawText t.kind t.literal.toList).length ≤ high
  position : t.position = .ofOffset source first
  eof_iff : t.kind = .eof ↔ first = source.length

def Token.StandsIn (source : List Char) (low high : Nat) (t : Token) : Prop :=
  ∃ first, t.StandsAt source low high first

theorem Token.StandsIn.widen {source : List Char} {low low' high high' : Nat} {t : Token}
    (h : t.StandsIn source low high) (hl : low' ≤ low) (hh : high ≤ high') :
    t.StandsIn source low' high' := by
  obtain ⟨first, hlow, htext, hhigh, hposition, heof⟩ := h
  exact ⟨first, Nat.le_trans hl hlow, htext, Nat.le_trans hhigh hh, hposition, heof⟩

namespace Cursor

/-- The cursor stands in the source where its offset says. -/
structure Stands (source : List Char) (c : Cursor) : Prop where
  offset_le : c.offset ≤ source.length
  rest : c.rest = source.drop c.offset
  position : c.position = .ofOffset source c.offset

section
variable {source : List Char} {c : Cursor}

theorem stands_ofList (source : List Char) : (ofList source).Stands source :=
  ⟨Nat.zero_le _, rfl, rfl⟩

theorem Stands.step {x : Char} {rest : List Char} {offset : Nat} {p : Position}
    (h : Stands source ⟨x :: rest, offset, p⟩) :
    Stands source ⟨rest, offset + 1, p.after x⟩ := by
  obtain ⟨-, hrest, hposition⟩ := h
  have hdrop : source.drop offset = x :: rest := hrest.symm
  refine ⟨?_, ?_, ?_⟩
  · have hlength := congrArg List.length hdrop
    rw [List.length_drop, List.length_cons] at hlength
    exact Nat.lt_of_sub_pos (hlength ▸ Nat.succ_pos _)
  · change rest = source.drop (offset + 1)
    rw [← List.tail_drop, hdrop, List.tail_cons]
  · change p.after x = _
    rw [Position.ofOffset_succ hdrop, ← hposition]

theorem Stands.advance (h : c.Stands source) (n : Nat) : (advance n c).Stands source := by
  induction n generalizing c with
  | zero => exact h
  | succ n ih =>
    obtain ⟨rest, offset, p⟩ := c
    cases rest with
    | nil => rwa [advance_end]
    | cons x rest => exact ih h.step

theorem Stands.skipBlanks (h : c.Stands source) : c.skipBlanks.Stands source := h.advance _

theorem Stands.next (h : c.Stands source) : c.next.2.Stands source := by
  cases hr : c.skipBlanks.rest with
  | nil =>
    rw [next_of_nil hr]
    exact h.skipBlanks
  | cons x rest =>
    rw [next_of_cons hr]
    exact h.skipBlanks.advance _

theorem offset_le_advance (n : Nat) (c : Cursor) : c.offset ≤ (Cursor.advance n c).offset := by
  rw [advance_offset]
  exact Nat.le_add_right _ _

theorem offset_le_skipBlanks (c : Cursor) : c.offset ≤ c.skipBlanks.offset := offset_le_advance _ c

theorem Stands.current (h : c.Stands source) : c.current = source[c.offset]? := by
  rw [Cursor.current, h.rest, List.head?_drop]

theorem Stands.peek (h : c.Stands source) : c.peek = source[c.offset + 1]? := by
  rw [Cursor.peek, h.rest, List.tail_drop, List.head?_drop]

/-- A cursor at the end of the source. -/
theorem Stands.offset_of_nil (h : c.Stands source) (hr : c.rest = []) :
    c.offset = source.length :=
  Nat.le_antisymm h.offset_le (List.drop_eq_nil_iff.mp (h.rest.symm.trans hr))

/-- A lexeme takes its raw text from the source. -/
theorem first_rawText {x : Char} (xs : List Char) (hb : isBlank x = false) :
    ∃ rest, x :: xs = rawText (Lexeme.first x xs).kind (Lexeme.first x xs).literal ++ rest ∧
      (Lexeme.first x xs).width =
        (rawText (Lexeme.first x xs).kind (Lexeme.first x xs).literal).length := by
  obtain ⟨k, literal, rest, htext, hlongest⟩ := startsLongest xs hb
  obtain ⟨y, ys, htext', -, hfirst⟩ := hlongest.readFirst
  obtain ⟨rfl, rfl⟩ := List.cons.inj (htext.trans htext')
  rw [hfirst]
  exact ⟨rest, htext, rfl⟩

/-- The token read next stands between the cursor and where the cursor is left. -/
theorem Stands.next_standsIn (h : c.Stands source) :
    c.next.1.StandsIn source c.offset c.next.2.offset := by
  have hskip := h.skipBlanks
  refine ⟨c.skipBlanks.offset, ?_⟩
  cases hr : c.skipBlanks.rest with
  | nil =>
    rw [next_of_nil hr]
    exact ⟨offset_le_skipBlanks c, List.nil_prefix, Nat.le_refl _, hskip.position,
      iff_of_true rfl (hskip.offset_of_nil hr)⟩
  | cons x xs =>
    have hb : isBlank x = false := by
      rw [skipBlanks_rest] at hr
      exact stops_dropWhile isBlank c.rest x (hr ▸ rfl)
    obtain ⟨rest, htext, hwidth⟩ := first_rawText xs hb
    have hdrop : source.drop c.skipBlanks.offset = x :: xs := hskip.rest.symm.trans hr
    have hlength := congrArg List.length htext
    rw [List.length_append] at hlength
    rw [next_of_cons hr]
    refine ⟨offset_le_skipBlanks c, ?_, ?_, hskip.position, ?_⟩
    · rw [String.toList_ofList, hdrop]
      exact ⟨rest, htext.symm⟩
    · rw [String.toList_ofList, advance_offset, hr, hwidth, hlength, Nat.min_eq_left (by omega)]
    · refine iff_of_false (Lexeme.first_spelled x xs).ne_eof fun he => ?_
      rw [he, List.drop_length] at hdrop
      cases hdrop

/-- A token other than the end token is behind the cursor that has read it. -/
theorem offset_lt_next (h : c.next.1.kind ≠ .eof) : c.offset < c.next.2.offset := by
  obtain ⟨x, xs, hr⟩ := List.exists_cons_of_ne_nil (mt next_kind_eof_iff.mpr h)
  have hpos := Lexeme.first_width_pos x xs
  have hskip := offset_le_skipBlanks c
  rw [next_of_cons hr, advance_offset, hr, List.length_cons]
  omega

theorem offset_le_next (c : Cursor) : c.offset ≤ c.next.2.offset := by
  by_cases h : c.next.1.kind = .eof
  · rw [next_of_nil (next_kind_eof_iff.mp h)]
    exact offset_le_skipBlanks c
  · exact Nat.le_of_lt (offset_lt_next h)

/-! ## The end -/

/-- The cursor is at the end of the source and gives the end token `t` from now on. -/
structure Finished (t : Token) (c : Cursor) : Prop where
  rest : c.rest = []
  token : t = ⟨.eof, "", c.position⟩

theorem finished_next (h : c.next.1.kind = .eof) : Finished c.next.1 c.next.2 := by
  have hr := next_kind_eof_iff.mp h
  rw [next_of_nil hr]
  exact ⟨hr, rfl⟩

section
variable {t : Token} (h : Finished t c)
include h

theorem Finished.kind : t.kind = .eof := by rw [h.token]

theorem Finished.advance (n : Nat) : Cursor.advance n c = c := by
  obtain ⟨rest, offset, p⟩ := c
  obtain rfl : rest = [] := h.rest
  exact advance_end n offset p

theorem Finished.skipBlanks : c.skipBlanks = c := h.advance _

theorem Finished.next : c.next = (t, c) := by
  rw [next_of_nil (h.skipBlanks.symm ▸ h.rest), h.skipBlanks, h.token]

theorem Finished.read : c.read = (⟨[], t⟩, c) := by
  rw [Cursor.read, readUpTo_of_eof (h.next.symm ▸ h.kind), h.next]

end

/-! ## Iteration -/

/-- What holds at the end token, and before each token if behind it, holds of a whole reading. -/
theorem read_induction {motive : Cursor → TokenStream × Cursor → Prop}
    (eof : ∀ c, c.next.1.kind = .eof → motive c (⟨[], c.next.1⟩, c.next.2))
    (token : ∀ c stream last, c.next.1.kind ≠ .eof → motive c.next.2 (stream, last) →
      motive c (⟨c.next.1 :: stream.tokens, stream.eof⟩, last)) (c : Cursor) :
    motive c c.read := by
  induction hn : c.rest.length using Nat.strongRecOn generalizing c with
  | _ n ih =>
    by_cases h : c.next.1.kind = .eof
    · rw [read, readUpTo_of_eof h]
      exact eof c h
    · have hlt := rest_lt_of_kind h
      obtain ⟨m, hm⟩ : ∃ m, c.rest.length = m + 1 := ⟨c.rest.length - 1, by omega⟩
      rw [read, hm, readUpTo_succ h, readUpTo_eq (by omega : _ ≤ m) (Nat.le_refl _)]
      exact token c _ _ h (ih _ (hn ▸ hlt) c.next.2 rfl)

/-- The source was read from the cursor on, up to the first end token. -/
structure Iterated (source : List Char) (c : Cursor) (r : TokenStream × Cursor) : Prop where
  stands : r.2.Stands source
  offset_le : c.offset ≤ r.2.offset
  tokens : ∀ t ∈ r.1.toList, t.StandsIn source c.offset r.2.offset
  not_eof : ∀ t ∈ r.1.tokens, t.kind ≠ .eof
  finished : Finished r.1.eof r.2

theorem Stands.read (h : c.Stands source) : Iterated source c c.read := by
  refine read_induction (motive := fun c r => c.Stands source → Iterated source c r) ?_ ?_ c h
  · intro c he h
    exact ⟨h.next, offset_le_next c, fun t ht => List.mem_singleton.mp ht ▸ h.next_standsIn,
      List.forall_mem_nil _, finished_next he⟩
  · intro c stream last he ih h
    obtain ⟨hstands, hle, htokens, hne, hfinished⟩ := ih h.next
    refine ⟨hstands, Nat.le_trans (offset_le_next c) hle, ?_, ?_, hfinished⟩
    · refine List.forall_mem_cons.mpr ⟨h.next_standsIn.widen (Nat.le_refl _) hle, fun t ht => ?_⟩
      exact (htokens t ht).widen (offset_le_next c) (Nat.le_refl _)
    · exact List.forall_mem_cons.mpr ⟨he, hne⟩

end

/-! ## Requests in any order -/

/-- What can be asked of a cursor. An iteration runs to its end token; one that is left early is so
many single reads. -/
inductive Request where
  | next
  | iterate
  | advance (n : Int)
  | skipBlanks
  | current
  | peek

/-- The tokens that a request hands out, and the cursor behind it. -/
def handle (c : Cursor) : Request → List Token × Cursor
  | .next => ([c.next.1], c.next.2)
  | .iterate => (c.read.1.toList, c.read.2)
  | .advance n => ([], Cursor.advance n.toNat c)
  | .skipBlanks => ([], c.skipBlanks)
  | .current | .peek => ([], c)

/-- The cursor behind a sequence of requests. -/
def after (c : Cursor) (requests : List Request) : Cursor :=
  requests.foldl (fun c r => (c.handle r).2) c

section
variable {source : List Char} {c : Cursor}

theorem Stands.handle (h : c.Stands source) (r : Request) : (c.handle r).2.Stands source := by
  cases r with
  | next => exact h.next
  | iterate => exact h.read.stands
  | advance n => exact h.advance _
  | skipBlanks => exact h.skipBlanks
  | current | peek => exact h

theorem Stands.offset_le_handle (h : c.Stands source) (r : Request) :
    c.offset ≤ (c.handle r).2.offset := by
  cases r with
  | next => exact offset_le_next c
  | iterate => exact h.read.offset_le
  | advance n => exact offset_le_advance _ c
  | skipBlanks => exact offset_le_skipBlanks c
  | current | peek => exact Nat.le_refl _

theorem Stands.handle_standsIn (h : c.Stands source) (r : Request) :
    ∀ t ∈ (c.handle r).1, t.StandsIn source c.offset (c.handle r).2.offset := by
  cases r with
  | next => exact fun t ht => List.mem_singleton.mp ht ▸ h.next_standsIn
  | iterate => exact h.read.tokens
  | advance n => exact List.forall_mem_nil _
  | skipBlanks => exact List.forall_mem_nil _
  | current | peek => exact List.forall_mem_nil _

theorem Stands.after (h : c.Stands source) (requests : List Request) :
    (c.after requests).Stands source ∧ c.offset ≤ (c.after requests).offset := by
  induction requests generalizing c with
  | nil => exact ⟨h, Nat.le_refl _⟩
  | cons r requests ih =>
    obtain ⟨hstands, hle⟩ := ih (h.handle r)
    exact ⟨hstands, Nat.le_trans (h.offset_le_handle r) hle⟩

/-- A request that hands out the end token leaves the cursor at the end. -/
theorem Stands.finished (h : c.Stands source) {r : Request} {t : Token}
    (ht : t ∈ (c.handle r).1) (hk : t.kind = .eof) : Finished t (c.handle r).2 := by
  cases r with
  | next =>
    obtain rfl := List.mem_singleton.mp ht
    exact finished_next hk
  | iterate =>
    obtain ⟨-, -, -, hne, hfinished⟩ := h.read
    rcases List.mem_append.mp ht with ht | ht
    · exact absurd hk (hne t ht)
    · exact List.mem_singleton.mp ht ▸ hfinished
  | advance n => cases ht
  | skipBlanks => cases ht
  | current | peek => cases ht

theorem Finished.handle {t : Token} (h : Finished t c) (r : Request) :
    (c.handle r).2 = c ∧ ∀ u ∈ (c.handle r).1, u = t := by
  cases r with
  | next =>
    rw [Cursor.handle, h.next]
    exact ⟨rfl, fun u hu => List.mem_singleton.mp hu⟩
  | iterate =>
    rw [Cursor.handle, h.read]
    exact ⟨rfl, fun u hu => List.mem_singleton.mp hu⟩
  | advance n => exact ⟨h.advance _, List.forall_mem_nil _⟩
  | skipBlanks => exact ⟨h.skipBlanks, List.forall_mem_nil _⟩
  | current | peek => exact ⟨rfl, List.forall_mem_nil _⟩

theorem Finished.after {t : Token} (h : Finished t c) (requests : List Request) :
    c.after requests = c := by
  induction requests with
  | nil => rfl
  | cons r requests ih =>
    change (c.handle r).2.after requests = c
    rw [(h.handle r).1, ih]

end

/-- What is true of a cursor of the source, whatever is asked of it from now on. -/
structure KeepsPlace (source : List Char) (c : Cursor) : Prop where
  stands : c.Stands source
  current : c.current = source[c.offset]?
  peek : c.peek = source[c.offset + 1]?
  forward (requests : List Request) : c.offset ≤ (c.after requests).offset
  tokens (r : Request) : ∀ t ∈ (c.handle r).1, t.StandsIn source c.offset (c.handle r).2.offset
  progress : c.next.1.kind ≠ .eof → c.offset < c.next.2.offset
  /-- Behind an end token nothing moves, and no other token is handed out. -/
  finished (r : Request) : ∀ t ∈ (c.handle r).1, t.kind = .eof → ∀ requests : List Request,
    (c.handle r).2.after requests = (c.handle r).2 ∧
      ∀ q, ∀ u ∈ ((c.handle r).2.handle q).1, u = t

end Cursor

/-- Whatever was asked of a cursor from the start of a source, it keeps its place. -/
theorem place_kept (source : String) (requests : List Cursor.Request) :
    Cursor.KeepsPlace source.toList ((Cursor.start source).after requests) := by
  have h := ((Cursor.stands_ofList source.toList).after requests).1
  refine ⟨h, h.current, h.peek, fun later => (h.after later).2, h.handle_standsIn,
    Cursor.offset_lt_next, ?_⟩
  intro r t ht hk later
  have hfinished := h.finished ht hk
  exact ⟨hfinished.after later, fun q => (hfinished.handle q).2⟩

/-- From inside a string the rest is read as if it were none, and each token has its own place. -/
theorem place_kept_inside_string :
    ∃ c, c = (Cursor.start "\x22a\nb").after [.advance 2, .current] ∧ c.position = ⟨1, 3⟩ ∧
      c.next.1 = ⟨.ident, "b", ⟨2, 1⟩⟩ ∧ c.offset < c.next.2.offset ∧
      ∀ later : List Cursor.Request, c.read.2.after later = c.read.2 := by
  have h := place_kept "\x22a\nb" [.advance 2, .current]
  refine ⟨_, rfl, rfl, rfl, h.progress (by decide), fun later => ?_⟩
  exact (h.finished .iterate ⟨.eof, "", ⟨2, 2⟩⟩ (by decide) rfl later).1

end Simian
