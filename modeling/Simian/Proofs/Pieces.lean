import Simian.Proofs.Grammar.Complete
import Simian.Proofs.Lexing

/-!
# Pieces of text

A text is put together from pieces, each of which is read as some tokens wherever it stands, so
long as what follows does not run into it. A word or a number needs something behind it that is
neither letter nor digit, an equals sign or an exclamation mark anything but an equals sign; all
other pieces can stand before anything.
-/

namespace Simian

open Text Grammar
set_option autoImplicit false

/-- The text `text`, if what follows `fits`, is read as readable tokens of which `P` holds. -/
def Yields (text : String) (fits : List Char → Prop) (P : List Token → Prop) : Prop :=
  ∀ (c : Cursor) (rest : List Char), c.rest = text.toList ++ rest → fits rest →
    ∃ (ts : List Token) (d : Cursor), c.stream.tokens = ts ++ d.stream.tokens ∧ d.rest = rest ∧
      (∀ t ∈ ts, Readable t) ∧ P ts

def Apart (rest : List Char) : Prop :=
  ∀ c ∈ rest.head?, isLetter c = false ∧ isDigit c = false ∧ c ≠ '='

def Free (_ : List Char) : Prop := True

def One (k : Kind) (literal : String) (ts : List Token) : Prop :=
  ∃ t, ts = [t] ∧ t.kind = k ∧ t.literal = literal

section
variable {text text' : String} {fits fits' : List Char → Prop} {P P' Q : List Token → Prop}

theorem Apart.of_cons {x : Char} {xs : List Char}
    (h : isLetter x = false ∧ isDigit x = false ∧ x ≠ '=') : Apart (x :: xs) := by
  intro c hc
  cases hc
  exact h

theorem Yields.imp (h : Yields text fits P) (hPQ : ∀ ts, P ts → Q ts) : Yields text fits Q := by
  intro c rest hc hr
  obtain ⟨ts, d, hts, hd, hread, hp⟩ := h c rest hc hr
  exact ⟨ts, d, hts, hd, hread, hPQ ts hp⟩

theorem Yields.weaken (h : Yields text fits P) (hf : ∀ rest, fits' rest → fits rest) :
    Yields text fits' P := fun c rest hc hr => h c rest hc (hf rest hr)

theorem Yields.anywhere (h : Yields text Free P) : Yields text fits P :=
  h.weaken fun _ _ => trivial

/-- Two pieces in a row, the second of which fits behind the first. -/
theorem Yields.append (h : Yields text fits P) (h' : Yields text' fits' P')
    (hf : ∀ rest, fits' rest → fits (text'.toList ++ rest)) :
    Yields (text ++ text') fits' fun ts => ∃ us vs, ts = us ++ vs ∧ P us ∧ P' vs := by
  intro c rest hc hr
  rw [String.toList_append, List.append_assoc] at hc
  obtain ⟨us, d, hus, hd, hread, hp⟩ := h c _ hc (hf rest hr)
  obtain ⟨vs, e, hvs, he, hread', hp'⟩ := h' d rest hd hr
  refine ⟨us ++ vs, e, ?_, he, fun t ht => ?_, us, vs, rfl, hp, hp'⟩
  · rw [hus, hvs, List.append_assoc]
  · exact (List.mem_append.mp ht).elim (hread t) (hread' t)

/-- A piece before which anything can stand that has no demand. -/
theorem Yields.then (h : Yields text Free P) (h' : Yields text' fits' P') :
    Yields (text ++ text') fits' fun ts => ∃ us vs, ts = us ++ vs ∧ P us ∧ P' vs :=
  h.append h' fun _ _ => trivial

theorem Yields.closing {x : Char} {xs : List Char} (h : Yields text Apart P)
    (h' : Yields text' Free P') (htext : text'.toList = x :: xs)
    (hx : isLetter x = false ∧ isDigit x = false ∧ x ≠ '=') :
    Yields (text ++ text') Free fun ts => ∃ us vs, ts = us ++ vs ∧ P us ∧ P' vs := by
  apply h.append h'
  intro rest _
  rw [htext]
  exact .of_cons hx

theorem Yields.nil (fits : List Char → Prop) : Yields "" fits fun ts => ts = [] :=
  fun c _ hc _ => ⟨[], c, rfl, hc, fun _ ht => absurd ht List.not_mem_nil, rfl⟩

theorem skipBlanks_cons {c : Cursor} {x : Char} {xs : List Char} (hc : c.rest = x :: xs)
    (hx : isBlank x = false) : c.skipBlanks = c := by
  simp [Cursor.skipBlanks, hc, hx]

theorem Yields.token {x : Char} {r : List Char} {k : Kind} {literal : List Char}
    (htext : text.toList = x :: r) (hx : isBlank x = false)
    (hfirst : ∀ rest, fits rest →
      Lexeme.first x (r ++ rest) = ⟨k, literal, text.toList.length⟩)
    (hread : k = .int → readInteger literal = .ok (digitsValue literal : Nat)) :
    Yields text fits (One k (String.ofList literal)) := by
  intro c rest hc hr
  rw [htext, List.cons_append] at hc
  have hskip := skipBlanks_cons hc hx
  have hnext := Cursor.next_of_cons (hskip.symm ▸ hc)
  have hspelled := Lexeme.first_spelled x (r ++ rest)
  rw [hfirst rest hr] at hnext hspelled
  have hk : c.next.1.kind ≠ .eof := by
    rw [hnext]
    exact hspelled.ne_eof
  refine ⟨[c.next.1], c.next.2, ?_, ?_, fun t ht hint => ?_, _, rfl, ?_, ?_⟩
  · rw [Cursor.stream_of_token hk]
    rfl
  · rw [hnext, hskip, Cursor.advance_rest, hc, htext, ← List.cons_append, List.drop_left]
  · obtain rfl := List.mem_singleton.mp ht
    rw [hnext] at hint ⊢
    rw [numeralValue, String.toList_ofList]
    exact hread hint
  · rw [hnext]
  · rw [hnext]

theorem Yields.blank {x : Char} (hx : isBlank x = true) :
    Yields (String.ofList [x]) Free fun ts => ts = [] := by
  intro c rest hc _
  rw [String.toList_ofList] at hc
  refine ⟨[], Cursor.advance 1 c, ?_, ?_, fun _ ht => absurd ht List.not_mem_nil, rfl⟩
  · rw [Cursor.stream_of_blank hc hx]
    rfl
  · rw [Cursor.advance_rest, hc]
    rfl

theorem Yields.spaceAfter (h : Yields text Apart P) : Yields (text ++ " ") Free P := by
  have hspace : Yields " " Free fun ts => ts = [] := .blank (x := ' ') rfl
  refine (h.append hspace fun _ _ => .of_cons (by decide)).imp ?_
  rintro _ ⟨us, vs, rfl, hp, rfl⟩
  rwa [List.append_nil]

theorem Yields.spaceBefore (h : Yields text fits P) : Yields (" " ++ text) fits P := by
  have hspace : Yields " " Free fun ts => ts = [] := .blank (x := ' ') rfl
  apply (hspace.then h).imp
  rintro _ ⟨us, vs, rfl, rfl, hp⟩
  exact hp

theorem Yields.symbol {x : Char} {k : Kind} (h : ∀ rest, Lexeme.first x rest = ⟨k, [x], 1⟩)
    (hx : isBlank x = false) (hk : k ≠ .int) :
    Yields (String.ofList [x]) Free (One k (String.ofList [x])) := by
  refine .token String.toList_ofList hx (fun rest _ => ?_) fun he => absurd he hk
  rw [List.nil_append, h, String.toList_ofList]
  rfl

end

/-- A run that ends where the text goes on otherwise. -/
theorem takeWhile_run {p : Char → Bool} {run rest : List Char} (h : ∀ c ∈ run, p c = true)
    (hr : ∀ c ∈ rest.head?, p c = false) : (run ++ rest).takeWhile p = run := by
  rw [List.takeWhile_append_of_pos h]
  cases rest with
  | nil => simp
  | cons x xs => simp [hr x rfl]

theorem not_isBlank {c : Char} (h : isLetter c = true ∨ isDigit c = true) : isBlank c = false := by
  by_contra hb
  simp only [isBlank, Bool.not_eq_false, Bool.or_eq_true, beq_iff_eq] at hb
  rcases hb with ((rfl | rfl) | rfl) | rfl <;> exact absurd h (by decide)

theorem Yields.word {w : String} (hne : w.toList ≠ []) (h : ∀ c ∈ w.toList, isLetter c = true) :
    Yields w Apart (One (Kind.ofWord w) w) := by
  obtain ⟨x, xs, htext⟩ := List.exists_cons_of_ne_nil hne
  rw [htext] at h
  have hx := h x List.mem_cons_self
  have hw : w = String.ofList (x :: xs) := by rw [← htext, String.ofList_toList]
  rw [hw]
  refine .token String.toList_ofList (not_isBlank (.inl hx)) (fun rest hr => ?_) fun he => ?_
  · have hrun := takeWhile_run (fun c hc => h c (List.mem_cons_of_mem x hc))
      fun c hc => (hr c hc).1
    rw [Lexeme.first, if_pos hx, hrun, String.toList_ofList]
    rfl
  · have hm := Lexeme.ofWord_mem (String.ofList (x :: xs))
    rw [he] at hm
    exact absurd hm (by decide)

theorem Yields.keyword (w : String) (hne : w.toList.isEmpty = false)
    (h : w.toList.all isLetter = true) : Yields w Apart (One (Kind.ofWord w) w) :=
  .word (List.isEmpty_eq_false_iff.mp hne) (List.all_eq_true.mp h)

theorem Yields.digits {ds : List Char} (hne : ds ≠ []) (h : ∀ c ∈ ds, isDigit c = true)
    (hl : ds.length ≤ digitLimit) :
    Yields (String.ofList ds) Apart (One .int (String.ofList ds)) := by
  obtain ⟨x, xs, rfl⟩ := List.exists_cons_of_ne_nil hne
  have hx := h x List.mem_cons_self
  refine .token String.toList_ofList (not_isBlank (.inr hx)) (fun rest hr => ?_) fun _ => ?_
  · have hrun := takeWhile_run (fun c hc => h c (List.mem_cons_of_mem x hc))
      fun c hc => (hr c hc).2.1
    rw [Lexeme.first, if_neg (by simp [isDigit_not_isLetter hx]), if_pos hx, hrun,
      String.toList_ofList]
    rfl
  · exact readInteger_of_digits hne h hl

theorem Yields.quoted {s : String} (h : '\x22' ∉ s.toList) :
    Yields ("\x22" ++ s ++ "\x22") Free (One .string s) := by
  rw [← String.ofList_toList (s := s)]
  refine .token (x := '\x22') (r := s.toList ++ ['\x22']) ?_ rfl (fun rest _ => ?_)
    fun he => absurd he (by decide)
  · simp
  · have hrun : (s.toList ++ '\x22' :: rest).takeWhile (· != '\x22') = s.toList := by
      refine takeWhile_run (fun c hc => ?_) fun c hc => ?_
      · simpa using ne_of_mem_of_not_mem hc h
      · cases hc
        rfl
    have htext : s.toList ++ ['\x22'] ++ rest = s.toList ++ '\x22' :: rest := by simp
    change Lexeme.quotation (s.toList ++ ['\x22'] ++ rest) = _
    rw [htext, Lexeme.quotation, hrun, if_pos (by simp)]
    simp

theorem toString_natCast (n : Nat) : toString (n : Int) = String.ofList (Nat.toDigits 10 n) :=
  Nat.toString_eq_ofList_toDigits

theorem toList_toString_ne_nil (n : Nat) : (toString (n : Int)).toList ≠ [] := by
  rw [toString_natCast, String.toList_ofList]
  exact Nat.toDigits_ne_nil

theorem isDigit_of_mem_toDigits {n : Nat} {c : Char} (hc : c ∈ Nat.toDigits 10 n) :
    isDigit c = true := by
  have hd := Nat.isDigit_of_mem_toDigits (by decide) (by decide) hc
  simp only [Char.isDigit, Bool.and_eq_true, decide_eq_true_eq] at hd
  simp only [isDigit, Bool.and_eq_true, decide_eq_true_eq]
  exact hd

theorem isDigit_of_mem_toString {n : Nat} {c : Char} (hc : c ∈ (toString (n : Int)).toList) :
    isDigit c = true := by
  rw [toString_natCast, String.toList_ofList] at hc
  exact isDigit_of_mem_toDigits hc

theorem Yields.number {n : Nat} (h : (n : Int) ≤ Int64.max) :
    Yields (toString (n : Int)) Apart fun ts =>
      ∃ t, ts = [t] ∧ t.kind = .int ∧ numeralValue t = n := by
  have hdigits : ∀ c ∈ Nat.toDigits 10 n, isDigit c = true :=
    fun _ hc => isDigit_of_mem_toDigits hc
  have hl : (Nat.toDigits 10 n).length ≤ digitLimit := by
    refine Nat.le_trans ((Nat.length_toDigits_le_iff (by decide) (by decide : 0 < 19)).mpr ?_)
      (by decide)
    have hmax : Int64.max = 9223372036854775807 := by decide
    omega
  rw [toString_natCast]
  apply (Yields.digits Nat.toDigits_ne_nil hdigits hl).imp
  rintro _ ⟨t, rfl, hk, hlit⟩
  refine ⟨t, rfl, hk, ?_⟩
  rw [numeralValue, hlit, String.toList_ofList]
  exact congrArg Nat.cast (Nat.ofDigitChars_toDigits (by decide) (by decide))

/-! ## Fixed pieces -/

theorem Yields.lparen : Yields "(" Free (One .lparen "(") :=
  .symbol (x := '(') (fun _ => rfl) rfl (by decide)

theorem Yields.rparen : Yields ")" Free (One .rparen ")") :=
  .symbol (x := ')') (fun _ => rfl) rfl (by decide)

theorem Yields.lbracket : Yields "[" Free (One .lbracket "[") :=
  .symbol (x := '[') (fun _ => rfl) rfl (by decide)

theorem Yields.rbracket : Yields "]" Free (One .rbracket "]") :=
  .symbol (x := ']') (fun _ => rfl) rfl (by decide)

theorem Yields.lbrace : Yields "\x7b" Free (One .lbrace "\x7b") :=
  .symbol (x := '\x7b') (fun _ => rfl) rfl (by decide)

theorem Yields.rbrace : Yields "\x7d" Free (One .rbrace "\x7d") :=
  .symbol (x := '\x7d') (fun _ => rfl) rfl (by decide)

theorem Yields.comma : Yields "," Free (One .comma ",") :=
  .symbol (x := ',') (fun _ => rfl) rfl (by decide)

theorem Yields.semicolon : Yields ";" Free (One .semicolon ";") :=
  .symbol (x := ';') (fun _ => rfl) rfl (by decide)

def NoEquals (rest : List Char) : Prop := ∀ c ∈ rest.head?, c ≠ '='

theorem NoEquals.of_cons {x : Char} {xs : List Char} (h : x ≠ '=') : NoEquals (x :: xs) := by
  intro c hc
  cases hc
  exact h

theorem Apart.noEquals {rest : List Char} (h : Apart rest) : NoEquals rest :=
  fun c hc => (h c hc).2.2

/-- An operator of one character that could be the start of a longer one. -/
theorem first_of_noEquals {x : Char} {rest : List Char} (hx : x = '=' ∨ x = '!')
    (h : NoEquals rest) : Lexeme.first x rest = ⟨(Lexeme.single x).getD .illegal, [x], 1⟩ := by
  have hpair : Lexeme.pair x rest.head? = none := by
    cases rest with
    | nil => rcases hx with rfl | rfl <;> rfl
    | cons y ys =>
      have hy : y ≠ '=' := h y rfl
      rcases hx with rfl | rfl <;> simp [Lexeme.pair, hy]
  rcases hx with rfl | rfl <;>
    simp [Lexeme.first, Lexeme.operator, hpair, isLetter, isDigit]

theorem Yields.assign : Yields "=" NoEquals (One .assign "=") :=
  .token (x := '=') (r := []) rfl rfl (fun _ hr => first_of_noEquals (.inl rfl) hr)
    fun he => absurd he (by decide)

theorem Yields.operator {k : Kind} (hk : k ∈ operators) :
    Yields k.text NoEquals (One k k.text) := by
  have plain {x : Char} {k : Kind} (h : ∀ rest, Lexeme.first x rest = ⟨k, [x], 1⟩)
      (hx : isBlank x = false) (hk : k ≠ .int) :
      Yields (String.ofList [x]) NoEquals (One k (String.ofList [x])) :=
    (Yields.symbol h hx hk).anywhere
  cases k with
  | bang =>
    exact .token (x := '!') (r := []) rfl rfl (fun _ hr => first_of_noEquals (.inr rfl) hr)
      fun he => absurd he (by decide)
  | eq => exact .token (x := '=') (r := ['=']) rfl rfl (fun _ _ => rfl) (fun he => nomatch he)
  | notEq => exact .token (x := '!') (r := ['=']) rfl rfl (fun _ _ => rfl) (fun he => nomatch he)
  | lt => exact plain (x := '<') (fun _ => rfl) rfl (by decide)
  | gt => exact plain (x := '>') (fun _ => rfl) rfl (by decide)
  | plus => exact plain (x := '+') (fun _ => rfl) rfl (by decide)
  | minus => exact plain (x := '-') (fun _ => rfl) rfl (by decide)
  | asterisk => exact plain (x := '*') (fun _ => rfl) rfl (by decide)
  | slash => exact plain (x := '/') (fun _ => rfl) rfl (by decide)
  | _ => exact absurd hk (by decide)

end Simian
