import Simian.Json.Printer
import Simian.Json.Reader
import Simian.Proofs.Pieces
import Simian.Text.Lines

/-!
# Written JSON is read back

A value without fractions, whose integers have no more digits than may be read and whose objects
have no key twice, is read back from its indented text. What stands behind a value matters to
numbers only, which would take in further digits, a fraction or an exponent.
-/

namespace Simian

open Text
set_option autoImplicit false

namespace Text

/-- The number has no more digits than may be read. -/
def Short (n : Nat) : Prop := (Nat.toDigits 10 n).length ≤ digitLimit

instance (n : Nat) : Decidable (Short n) := inferInstanceAs (Decidable (_ ≤ _))

theorem Short.mono {m n : Nat} (h : Short n) (hm : m ≤ n) : Short m := by
  have hpos : 0 < digitLimit := by decide
  rw [Short, Nat.length_toDigits_le_iff (by decide) hpos] at h ⊢
  exact Nat.lt_of_le_of_lt hm h

end Text

namespace Json

/-- What can be written so that it is read back. -/
inductive Legible : Json → Prop where
  | null : Legible .null
  | bool {b : Bool} : Legible (.bool b)
  | int {n : Int} : Short n.natAbs → Legible (.int n)
  | str {s : String} : Legible (.str s)
  | arr {items : List Json} : (∀ j ∈ items, Legible j) → Legible (.arr items)
  | obj {members : List (String × Json)} : (Assoc.keys members).Nodup →
      (∀ m ∈ members, Legible m.2) → Legible (.obj members)

/-! ## Blanks -/

theorem skip_append {gap : List Char} (h : ∀ c ∈ gap, isBlank c = true) (cs : List Char) :
    skip (gap ++ cs) = skip cs := List.dropWhile_append_of_pos h

@[simp] theorem skip_cons_of_not {c : Char} (h : isBlank c = false) (cs : List Char) :
    skip (c :: cs) = c :: cs := List.dropWhile_cons_of_neg (by simp [h])

theorem skip_space (cs : List Char) : skip (' ' :: cs) = skip cs :=
  skip_append (List.forall_mem_singleton.mpr rfl) cs

theorem isBlank_comma : isBlank ',' = false := rfl

theorem isBlank_colon : isBlank ':' = false := rfl

theorem isBlank_quote : isBlank '\x22' = false := rfl

theorem breakLine_blank (level : Nat) : ∀ c ∈ (breakLine level).toList, isBlank c = true := by
  rw [breakLine, String.toList_ofList]
  intro c hc
  rcases List.mem_cons.mp hc with rfl | hc
  · rfl
  · rw [List.eq_of_mem_replicate hc]
    rfl

theorem skip_breakLine (level : Nat) (cs : List Char) :
    skip ((breakLine level).toList ++ cs) = skip cs := skip_append (breakLine_blank level) cs

theorem readItems_skip {gap : List Char} (h : ∀ c ∈ gap, isBlank c = true) (fuel : Nat)
    (cs : List Char) : readItems fuel (gap ++ cs) = readItems fuel cs := by
  cases fuel with
  | zero => rfl
  | succ fuel => rw [readItems, readItems, skip_append h]

theorem readMembers_skip {gap : List Char} (h : ∀ c ∈ gap, isBlank c = true) (fuel : Nat)
    (done : List (String × Json)) (cs : List Char) :
    readMembers fuel done (gap ++ cs) = readMembers fuel done cs := by
  cases fuel with
  | zero => rfl
  | succ fuel => rw [readMembers, readMembers, skip_append h]

/-! ## Strings -/

theorem hexValue?_digitChar : ∀ d < 16, hexValue? (Nat.digitChar d) = some d := by decide

theorem readUnit_hex {n : Nat} (h : n < 0x10000) (rest : List Char) :
    readUnit (hex 4 n ++ rest) = .ok (n, rest) := by
  have hvalue (m : Nat) : hexValue? (Nat.digitChar (m % 16)) = some (m % 16) :=
    hexValue?_digitChar _ (Nat.mod_lt m (by decide))
  simp only [hex, List.nil_append, List.cons_append, readUnit, hvalue]
  congr 2
  omega

theorem readCode_hex {c : Char} (h : c.toNat < 0xd800) (rest : List Char) :
    readCode (hex 4 c.toNat ++ rest) = .ok (c, rest) := by
  have hhigh : ¬(0xd800 ≤ c.toNat ∧ c.toNat < 0xdc00) := by omega
  have hlow : ¬(0xdc00 ≤ c.toNat ∧ c.toNat < 0xe000) := by omega
  rw [readCode, readUnit_hex (by omega)]
  simp only [bind, Except.bind, hhigh, hlow, if_false, Char.ofNat_toNat]
  rfl

theorem readChars_plain {c : Char} (hquote : c ≠ '\x22') (hslash : c ≠ '\\')
    (hc : ¬c.toNat < 0x20) (fuel : Nat) (done rest : List Char) :
    readChars (fuel + 1) done (c :: rest) = readChars fuel (c :: done) rest := by
  rw [readChars, if_neg hc] <;> simp [hquote, hslash]

/-- What a character is written as is read as that character. -/
theorem readChars_escapeChar (c : Char) (fuel : Nat) (done rest : List Char) :
    readChars (fuel + 1) done (escapeChar c ++ rest) = readChars fuel (c :: done) rest := by
  by_cases hnamed : c ∈ ['\x22', '\\', '\n', '\r', '\t', '\x08', '\x0c']
  · simp only [List.mem_cons, List.not_mem_nil, or_false] at hnamed
    rcases hnamed with rfl | rfl | rfl | rfl | rfl | rfl | rfl <;> rfl
  · simp only [List.mem_cons, List.not_mem_nil, or_false, not_or] at hnamed
    obtain ⟨hquote, hslash, hline, hreturn, htab, hback, hfeed⟩ := hnamed
    rw [escapeChar, if_neg hquote, if_neg hslash, if_neg hline, if_neg hreturn, if_neg htab,
      if_neg hback, if_neg hfeed]
    split
    · rw [List.cons_append, List.cons_append, readChars, readCode_hex (by omega)]
      rfl
    · next hc => exact readChars_plain hquote hslash hc fuel done rest

theorem readChars_flatMap {s : List Char} {fuel : Nat} (h : s.length < fuel)
    (done rest : List Char) :
    readChars fuel done (s.flatMap escapeChar ++ '\x22' :: rest)
      = .ok (String.ofList (done.reverse ++ s), rest) := by
  induction s generalizing fuel done with
  | nil =>
    obtain ⟨fuel, rfl⟩ := Nat.exists_eq_add_of_lt h
    simp [readChars]
  | cons c s ih =>
    obtain ⟨fuel, rfl⟩ := Nat.exists_eq_add_of_lt h
    rw [List.flatMap_cons, List.append_assoc, readChars_escapeChar,
      ih (by rw [List.length_cons]; omega)]
    simp

theorem length_le_flatMap (s : List Char) : s.length ≤ (s.flatMap escapeChar).length := by
  induction s with
  | nil => exact Nat.le_refl 0
  | cons c s ih =>
    have hc : 0 < (escapeChar c).length := by
      unfold escapeChar
      split_ifs <;> exact Nat.succ_pos _
    rw [List.flatMap_cons, List.length_cons, List.length_append]
    omega

theorem toList_string (s : String) :
    (string s).toList = '\x22' :: (s.toList.flatMap escapeChar ++ ['\x22']) := by
  rw [string, String.toList_ofList, List.cons_append]

theorem readString_string (s : String) (rest : List Char) :
    readString (s.toList.flatMap escapeChar ++ '\x22' :: rest) = .ok (s, rest) := by
  have hfuel := length_le_flatMap s.toList
  rw [readString, readChars_flatMap (by rw [List.length_append]; omega), List.reverse_nil,
    List.nil_append, String.ofList_toList]

/-! ## Numbers -/

/-- What can stand behind a number. -/
def Ends (rest : List Char) : Prop :=
  ∀ c ∈ rest.head?, isDigit c = false ∧ c ≠ '.' ∧ c ≠ 'e' ∧ c ≠ 'E'

theorem Ends.nil : Ends [] := fun _ hc => nomatch hc

theorem Ends.of_cons {c : Char} {cs : List Char}
    (h : isDigit c = false ∧ c ≠ '.' ∧ c ≠ 'e' ∧ c ≠ 'E') : Ends (c :: cs) := by
  intro d hd
  cases hd
  exact h

theorem Ends.breakLine (level : Nat) (cs : List Char) :
    Ends ((breakLine level).toList ++ cs) := by
  rw [Json.breakLine, String.toList_ofList]
  exact .of_cons (by decide)

theorem Ends.splitFraction {rest : List Char} (h : Ends rest) :
    splitFraction rest = ([], rest) := by
  unfold Json.splitFraction
  split
  · exact absurd rfl (h _ rfl).2.1
  · rfl

theorem Ends.splitExponent {rest : List Char} (h : Ends rest) :
    splitExponent rest = (none, rest) := by
  cases rest with
  | nil => rfl
  | cons c cs =>
    obtain ⟨-, -, he, hE⟩ := h c rfl
    simp [Json.splitExponent, he, hE]

theorem exists_cons_toDigits (n : Nat) : ∃ c cs, Nat.toDigits 10 n = c :: cs :=
  List.exists_cons_of_ne_nil Nat.toDigits_ne_nil

theorem head?_toDigits_ne_zero {n : Nat} (h : 0 < n) : (Nat.toDigits 10 n).head? ≠ some '0' := by
  induction n using Nat.strongRecOn with
  | _ n ih =>
    by_cases hn : n < 10
    · have hchar : ∀ d < 10, 0 < d → [Nat.digitChar d].head? ≠ some '0' := by decide
      rw [Nat.toDigits_of_lt_base hn]
      exact hchar n hn h
    · have hdiv : 0 < n / 10 := by omega
      obtain ⟨c, cs, hcs⟩ := exists_cons_toDigits (n / 10)
      have hhead := ih (n / 10) (by omega) hdiv
      rw [← Nat.div_add_mod n 10, ← Nat.toDigits_append_toDigits (by decide) hdiv (by omega), hcs]
      rw [hcs] at hhead
      exact hhead

/-- A number is written without a leading zero. -/
theorem units_toDigits (n : Nat) :
    (if (Nat.toDigits 10 n).head? = some '0' then ['0'] else Nat.toDigits 10 n)
      = Nat.toDigits 10 n := by
  rcases Nat.eq_zero_or_pos n with rfl | h
  · rfl
  · exact if_neg (head?_toDigits_ne_zero h)

theorem readNumeral_toDigits {n : Nat} (h : Short n) :
    readNumeral (Nat.toDigits 10 n) = .ok n := by
  rw [readNumeral_eq_ok Nat.toDigits_ne_nil (fun _ hc => isDigit_of_mem_toDigits hc) h]
  exact congrArg Except.ok (Nat.ofDigitChars_toDigits (by decide) (by decide))

theorem readNumber_toDigits (negative : Bool) {n : Nat} (h : Short n)
    {rest : List Char} (hr : Ends rest) :
    readNumber negative (Nat.toDigits 10 n ++ rest)
      = .ok (.int (if negative then -(n : Int) else n), rest) := by
  have hrun : (Nat.toDigits 10 n ++ rest).takeWhile isDigit = Nat.toDigits 10 n :=
    takeWhile_run (fun _ hc => isDigit_of_mem_toDigits hc) fun c hc => (hr c hc).1
  have hne : (Nat.toDigits 10 n).isEmpty = false :=
    List.isEmpty_eq_false_iff.mpr Nat.toDigits_ne_nil
  simp only [readNumber, hrun, units_toDigits, hne, List.drop_left, hr.splitFraction,
    hr.splitExponent, readNumeral_toDigits h]
  rfl

/-! ## Values -/

/-- At any level and before anything that can stand there, the text of the value is read as the
value. Twice the length of the text is deep enough. -/
def ReadsBack (j : Json) : Prop :=
  ∀ (level fuel : Nat) (rest : List Char), 2 * (j.indented level).length ≤ fuel → Ends rest →
    readValue (fuel + 1) ((j.indented level).toList ++ rest) = .ok (j, rest)

theorem readWord_append (word : String) (value : Json) (rest : List Char) :
    readWord word value (word.toList ++ rest) = .ok (value, rest) := by
  have hdrop : (word.toList ++ rest).drop word.length = rest := by
    rw [← String.length_toList, List.drop_left]
  have hprefix : word.toList.isPrefixOf (word.toList ++ rest) = true := by simp
  rw [readWord, if_pos hprefix, hdrop]

/-- A constant is read by its word. -/
theorem readsBack_word {j : Json} (word : String) (c : Char) (cs : List Char)
    (hword : word.toList = c :: cs) (htext : ∀ level, j.indented level = word)
    (hread : ∀ fuel tail, readValue (fuel + 1) (c :: tail) = readWord word j (c :: tail)) :
    j.ReadsBack := by
  intro level fuel rest _ _
  rw [htext, hword, List.cons_append, hread, ← List.cons_append, ← hword, readWord_append]

theorem readValue_quotation (fuel : Nat) (cs : List Char) :
    readValue (fuel + 1) ('\x22' :: cs) = (readString cs).map fun p => (str p.1, p.2) := by
  change (do let p ← readString cs; return (str p.1, p.2)) = _
  cases readString cs <;> rfl

theorem readValue_of_isDigit {c : Char} (h : isDigit c = true) (fuel : Nat) (cs : List Char) :
    readValue (fuel + 1) (c :: cs) = readNumber false (c :: cs) := by
  rw [readValue]
  case x_3 => exact nofun
  -- No digit starts a value of another kind.
  all_goals
    rintro _ ⟨⟩
    exact absurd h (by decide)

theorem toList_indented_ofNat (n level : Nat) :
    ((int (.ofNat n)).indented level).toList = Nat.toDigits 10 n := by
  change (toString (n : Int)).toList = _
  rw [toString_natCast, String.toList_ofList]

theorem toList_indented_negSucc (n level : Nat) :
    ((int (.negSucc n)).indented level).toList = '-' :: Nat.toDigits 10 (n + 1) := by
  change ("-" ++ toString ((n + 1 : Nat) : Int)).toList = _
  rw [String.toList_append, toString_natCast, String.toList_ofList, String.toList_ofList]
  rfl

theorem readsBack_int {n : Int} (h : Short n.natAbs) : (int n).ReadsBack := by
  intro level fuel rest _ hr
  cases n with
  | ofNat n =>
    have hn : Short n := h
    obtain ⟨c, cs, hcs⟩ := exists_cons_toDigits n
    have hc : isDigit c = true := isDigit_of_mem_toDigits (hcs ▸ List.mem_cons_self)
    rw [toList_indented_ofNat, hcs, List.cons_append, readValue_of_isDigit hc, ← List.cons_append,
      ← hcs, readNumber_toDigits false hn hr]
    rfl
  | negSucc n =>
    have hn : Short (n + 1) := h
    obtain ⟨c, cs, hcs⟩ := exists_cons_toDigits (n + 1)
    have hc : isDigit c = true := isDigit_of_mem_toDigits (hcs ▸ List.mem_cons_self)
    have hread : readValue (fuel + 1) ('-' :: (Nat.toDigits 10 (n + 1) ++ rest))
        = readNumber true (Nat.toDigits 10 (n + 1) ++ rest) := by
      rw [hcs, List.cons_append, readValue]
      rintro _ ⟨⟩
      exact absurd hc (by decide)
    rw [toList_indented_negSucc, List.cons_append, hread, readNumber_toDigits true hn hr]
    rfl

theorem readsBack_str (s : String) : (str s).ReadsBack := by
  intro level fuel rest _ _
  change readValue (fuel + 1) ((string s).toList ++ rest) = _
  rw [toList_string, List.cons_append, List.append_assoc, List.singleton_append,
    readValue_quotation, readString_string]
  rfl

/-- Neither a blank nor a closing bracket starts a value. -/
theorem cons_of_readValue {fuel : Nat} {cs : List Char} {p : Json × List Char}
    (h : readValue fuel cs = .ok p) : ∃ c tail, cs = c :: tail ∧ isBlank c = false ∧ c ≠ ']' := by
  cases fuel with
  | zero => cases h
  | succ fuel =>
    cases cs with
    | nil => cases h
    | cons c tail =>
      refine ⟨c, tail, rfl, Bool.eq_false_iff.mpr fun hc => ?_, ?_⟩
      · simp only [isBlank, Bool.or_eq_true, beq_iff_eq] at hc
        rcases hc with ((rfl | rfl) | rfl) | rfl <;> cases h
      · rintro rfl
        cases h

theorem ReadsBack.starts {j : Json} (h : j.ReadsBack) (level : Nat) :
    ∃ c tail, (j.indented level).toList = c :: tail ∧ isBlank c = false ∧ c ≠ ']' := by
  have hread := h level _ [] (Nat.le_refl _) .nil
  rw [List.append_nil] at hread
  exact cons_of_readValue hread

theorem ReadsBack.skip {j : Json} (h : j.ReadsBack) (level : Nat) (rest : List Char) :
    Json.skip ((j.indented level).toList ++ rest) = (j.indented level).toList ++ rest := by
  obtain ⟨c, tail, htext, hc, -⟩ := h.starts level
  rw [htext, List.cons_append, skip_cons_of_not hc]

/-! ## Arrays and objects -/

/-- Parts as they stand between brackets, each on its line. -/
def onLines (level : Nat) (parts : List String) : String :=
  ("," ++ breakLine level).intercalate parts

theorem onLines_singleton (level : Nat) (part : String) : onLines level [part] = part :=
  String.intercalate_singleton

theorem toList_onLines_cons (level : Nat) (part next : String) (parts : List String) :
    (onLines level (part :: next :: parts)).toList = part.toList ++
      (',' :: ((breakLine level).toList ++ (onLines level (next :: parts)).toList)) := by
  rw [onLines, String.intercalate_cons_cons]
  simp [onLines]

theorem onLines_head {part : String} {c : Char} {tail : List Char} (h : part.toList = c :: tail)
    (level : Nat) (parts : List String) :
    ∃ more, (onLines level (part :: parts)).toList = c :: more := by
  cases parts with
  | nil => exact ⟨tail, by rw [onLines_singleton, h]⟩
  | cons next parts => exact ⟨_, by rw [toList_onLines_cons, h, List.cons_append]⟩

theorem toList_enclose_cons (left right : String) (level : Nat) (part : String)
    (parts : List String) :
    (enclose left right level (part :: parts)).toList =
      left.toList ++ ((breakLine (level + 1)).toList ++
        ((onLines (level + 1) (part :: parts)).toList ++
          ((breakLine level).toList ++ right.toList))) := by
  simp [enclose, onLines]

theorem readItems_next {j : Json} (h : j.ReadsBack) {level fuel : Nat}
    (hfuel : 2 * (j.indented level).length ≤ fuel) (more : List Char) :
    readItems (fuel + 2) ((j.indented level).toList ++ ',' :: more)
      = (readItems (fuel + 1) more).map fun p => (j :: p.1, p.2) := by
  rw [readItems, h.skip, h level fuel _ hfuel (.of_cons (by decide))]
  simp only [bind, Except.bind, skip_cons_of_not isBlank_comma]
  cases readItems (fuel + 1) more <;> rfl

theorem readItems_last {j : Json} (h : j.ReadsBack) {level fuel : Nat}
    (hfuel : 2 * (j.indented level).length ≤ fuel) (outer : Nat) (rest : List Char) :
    readItems (fuel + 2) ((j.indented level).toList ++ ((breakLine outer).toList ++ ']' :: rest))
      = .ok ([j], rest) := by
  have hclose : isBlank ']' = false := rfl
  rw [readItems, h.skip, h level fuel _ hfuel (.breakLine _ _)]
  simp only [bind, Except.bind, pure, Except.pure, skip_breakLine, skip_cons_of_not hclose]

theorem readItems_onLines {items : List Json} (h : ∀ j ∈ items, j.ReadsBack) (hne : items ≠ [])
    (level fuel : Nat) (hfuel : 2 * (onLines level (indentedItems level items)).length + 2 ≤ fuel)
    (outer : Nat) (rest : List Char) :
    readItems fuel ((onLines level (indentedItems level items)).toList ++
      ((breakLine outer).toList ++ ']' :: rest)) = .ok (items, rest) := by
  induction items generalizing fuel with
  | nil => exact absurd rfl hne
  | cons j items ih =>
    obtain ⟨hj, hitems⟩ := List.forall_mem_cons.mp h
    obtain ⟨fuel, rfl⟩ : ∃ k, fuel = k + 2 := ⟨fuel - 2, by omega⟩
    -- Reading on takes one level, and the comma alone has left room for two.
    cases items with
    | nil =>
      rw [indentedItems, indentedItems, onLines_singleton] at hfuel ⊢
      exact readItems_last hj (by omega) outer rest
    | cons k items =>
      have htext := toList_onLines_cons level (j.indented level) (k.indented level)
        (indentedItems level items)
      have hlength := congrArg List.length htext
      have htail := ih hitems (List.cons_ne_nil _ _) (fuel + 1)
      simp only [indentedItems, List.length_append, List.length_cons, String.length_toList]
        at hlength hfuel htail ⊢
      rw [htext, List.append_assoc, List.cons_append, readItems_next hj (by omega),
        List.append_assoc, readItems_skip (breakLine_blank level), htail (by omega)]
      rfl

theorem readValue_array {fuel : Nat} {c : Char} {inner after : List Char} {items : List Json}
    (hblank : isBlank c = false) (hc : c ≠ ']') (level : Nat)
    (h : readItems fuel (c :: inner) = .ok (items, after)) :
    readValue (fuel + 1) ('[' :: ((breakLine level).toList ++ c :: inner))
      = .ok (.arr items, after) := by
  rw [readValue, skip_breakLine, skip_cons_of_not hblank]
  split
  · next heq => exact absurd (List.cons.inj heq).1 hc
  · rw [h]
    rfl

theorem readsBack_arr {items : List Json} (h : ∀ j ∈ items, j.ReadsBack) :
    (arr items).ReadsBack := by
  intro level fuel rest hfuel _
  cases items with
  | nil =>
    have htext : ((arr []).indented level).toList = ['[', ']'] := by
      simp [indented, indentedItems, enclose]
    rw [htext]
    rfl
  | cons j items =>
    have htext := toList_enclose_cons "[" "]" level (j.indented (level + 1))
      (indentedItems (level + 1) items)
    have hlength := congrArg List.length htext
    have hitems := readItems_onLines h (List.cons_ne_nil _ _) (level + 1) fuel
    obtain ⟨c, tail, hhead, hblank, hc⟩ := (h j List.mem_cons_self).starts (level + 1)
    obtain ⟨more, hmore⟩ := onLines_head hhead (level + 1) (indentedItems (level + 1) items)
    have hbracket : "[".toList = ['['] := rfl
    have hbracket' : "]".toList = [']'] := rfl
    rw [indentedItems] at hitems
    rw [indented, indentedItems] at hfuel ⊢
    simp only [List.length_append, String.length_toList, List.length_singleton, hbracket] at hlength
    replace hitems := hitems (by omega) level rest
    rw [hmore, List.cons_append] at hitems
    rw [htext, hmore]
    simp only [List.append_assoc, List.cons_append, List.nil_append, hbracket, hbracket']
    exact readValue_array hblank hc (level + 1) hitems

theorem toList_member_append (key : String) (j : Json) (level : Nat) (rest : List Char) :
    (string key ++ ": " ++ j.indented level).toList ++ rest =
      '\x22' :: (key.toList.flatMap escapeChar ++
        '\x22' :: ':' :: ' ' :: ((j.indented level).toList ++ rest)) := by
  simp [toList_string]

theorem readMembers_next {j : Json} (h : j.ReadsBack) (key : String) {level fuel : Nat}
    (hfuel : 2 * (j.indented level).length ≤ fuel) (done : List (String × Json))
    (more : List Char) :
    readMembers (fuel + 2) done ((string key ++ ": " ++ j.indented level).toList ++ ',' :: more)
      = readMembers (fuel + 1) (Assoc.set key j done) more := by
  have hvalue := h level fuel (',' :: more) hfuel (.of_cons (by decide))
  rw [toList_member_append, readMembers, skip_cons_of_not isBlank_quote]
  simp only [readString_string, bind, Except.bind, skip_cons_of_not isBlank_colon, skip_space,
    h.skip, hvalue, skip_cons_of_not isBlank_comma]

theorem readMembers_last {j : Json} (h : j.ReadsBack) (key : String) {level fuel : Nat}
    (hfuel : 2 * (j.indented level).length ≤ fuel) (done : List (String × Json)) (outer : Nat)
    (rest : List Char) :
    readMembers (fuel + 2) done ((string key ++ ": " ++ j.indented level).toList ++
      ((breakLine outer).toList ++ '\x7d' :: rest)) = .ok (Assoc.set key j done, rest) := by
  have hclose : isBlank '\x7d' = false := rfl
  have hvalue := h level fuel _ hfuel (.breakLine outer ('\x7d' :: rest))
  rw [toList_member_append, readMembers, skip_cons_of_not isBlank_quote]
  simp only [readString_string, bind, Except.bind, pure, Except.pure,
    skip_cons_of_not isBlank_colon, skip_space, h.skip, hvalue, skip_breakLine,
    skip_cons_of_not hclose]

theorem readMembers_onLines {members : List (String × Json)}
    (h : ∀ m ∈ members, m.2.ReadsBack) (hne : members ≠ []) (done : List (String × Json))
    (hkeys : (Assoc.keys (done ++ members)).Nodup) (level fuel : Nat)
    (hfuel : 2 * (onLines level (indentedMembers level members)).length + 2 ≤ fuel)
    (outer : Nat) (rest : List Char) :
    readMembers fuel done ((onLines level (indentedMembers level members)).toList ++
      ((breakLine outer).toList ++ '\x7d' :: rest)) = .ok (done ++ members, rest) := by
  induction members generalizing done fuel with
  | nil => exact absurd rfl hne
  | cons m members ih =>
    obtain ⟨key, j⟩ := m
    obtain ⟨hj, hmembers⟩ : j.ReadsBack ∧ ∀ m ∈ members, m.2.ReadsBack :=
      List.forall_mem_cons.mp h
    obtain ⟨fuel, rfl⟩ : ∃ k, fuel = k + 2 := ⟨fuel - 2, by omega⟩
    have hset : Assoc.set key j done = done ++ [(key, j)] := by
      refine Assoc.set_of_not_mem_keys (fun hmem => ?_) j
      rw [Assoc.keys, List.map_append, List.nodup_append] at hkeys
      exact hkeys.2.2 key hmem key List.mem_cons_self rfl
    have hmember : (j.indented level).length
        ≤ (string key ++ ": " ++ j.indented level).length := by
      rw [String.length_append]
      exact Nat.le_add_left _ _
    cases members with
    | nil =>
      rw [indentedMembers, indentedMembers, onLines_singleton] at hfuel ⊢
      rw [readMembers_last hj key (by omega), hset]
    | cons m members =>
      obtain ⟨next, k⟩ := m
      have htext := toList_onLines_cons level (string key ++ ": " ++ j.indented level)
        (string next ++ ": " ++ k.indented level) (indentedMembers level members)
      have hlength := congrArg List.length htext
      have htail := ih hmembers (List.cons_ne_nil _ _) (done ++ [(key, j)])
        (by rwa [List.append_assoc]) (fuel + 1)
      simp only [indentedMembers, List.length_append, List.length_cons, String.length_toList]
        at hlength hfuel htail ⊢
      rw [htext, List.append_assoc, List.cons_append, readMembers_next hj key (by omega), hset,
        List.append_assoc, readMembers_skip (breakLine_blank level), htail (by omega),
        List.append_assoc, List.singleton_append]

theorem readValue_object {fuel : Nat} {c : Char} {inner after : List Char}
    {members : List (String × Json)} (hblank : isBlank c = false) (hc : c ≠ '\x7d') (level : Nat)
    (h : readMembers fuel [] (c :: inner) = .ok (members, after)) :
    readValue (fuel + 1) ('\x7b' :: ((breakLine level).toList ++ c :: inner))
      = .ok (.obj members, after) := by
  rw [readValue, skip_breakLine, skip_cons_of_not hblank]
  split
  · next heq => exact absurd (List.cons.inj heq).1 hc
  · rw [h]
    rfl

theorem readsBack_obj {members : List (String × Json)} (hkeys : (Assoc.keys members).Nodup)
    (h : ∀ m ∈ members, m.2.ReadsBack) : (obj members).ReadsBack := by
  intro level fuel rest hfuel _
  cases members with
  | nil =>
    have htext : ((obj []).indented level).toList = ['\x7b', '\x7d'] := by
      simp [indented, indentedMembers, enclose]
    rw [htext]
    rfl
  | cons m members =>
    obtain ⟨key, j⟩ := m
    have htext := toList_enclose_cons "\x7b" "\x7d" level
      (string key ++ ": " ++ j.indented (level + 1)) (indentedMembers (level + 1) members)
    have hlength := congrArg List.length htext
    have hmembers := readMembers_onLines h (List.cons_ne_nil _ _) [] hkeys (level + 1) fuel
    have hhead : (string key ++ ": " ++ j.indented (level + 1)).toList = '\x22' ::
        (key.toList.flatMap escapeChar ++ '\x22' :: (": " ++ j.indented (level + 1)).toList) := by
      simp [toList_string]
    obtain ⟨more, hmore⟩ := onLines_head hhead (level + 1) (indentedMembers (level + 1) members)
    have hbrace : "\x7b".toList = ['\x7b'] := rfl
    have hbrace' : "\x7d".toList = ['\x7d'] := rfl
    rw [indentedMembers] at hmembers
    rw [indented, indentedMembers] at hfuel ⊢
    simp only [List.length_append, String.length_toList, List.length_singleton, hbrace] at hlength
    replace hmembers := hmembers (by omega) level rest
    rw [hmore, List.cons_append] at hmembers
    rw [htext, hmore]
    simp only [List.append_assoc, List.cons_append, List.nil_append, hbrace, hbrace']
    exact readValue_object rfl (by decide) (level + 1) hmembers

theorem Legible.readsBack {j : Json} (h : j.Legible) : j.ReadsBack := by
  induction h with
  | null =>
    refine readsBack_word "null" 'n' ['u', 'l', 'l'] rfl (fun _ => ?_) fun _ _ => ?_
    · rw [indented]
    · rfl
  | @bool b =>
    cases b with
    | false =>
      refine readsBack_word "false" 'f' ['a', 'l', 's', 'e'] rfl (fun _ => ?_) fun _ _ => ?_
      · rw [indented]; rfl
      · rfl
    | true =>
      refine readsBack_word "true" 't' ['r', 'u', 'e'] rfl (fun _ => ?_) fun _ _ => ?_
      · rw [indented]; rfl
      · rfl
  | int hn => exact readsBack_int hn
  | str => exact readsBack_str _
  | arr _ ih => exact readsBack_arr ih
  | obj hkeys _ ih => exact readsBack_obj hkeys ih

/-- What was written indented is read as the value that it was. -/
theorem Legible.read_pretty {j : Json} (h : j.Legible) : read j.pretty = .ok j := by
  have hskip := h.readsBack.skip 0 []
  have hread := h.readsBack 0 (2 * j.pretty.toList.length + 1) [] (by
    rw [pretty, String.length_toList]; omega) .nil
  rw [List.append_nil] at hskip hread
  rw [read, readList, pretty, hskip]
  rw [pretty] at hread
  rw [hread]
  rfl

/-! ## Line ends -/

theorem return_not_mem_hex (width n : Nat) : '\r' ∉ hex width n := by
  have hdigit : ∀ d < 16, '\r' ≠ Nat.digitChar d := by decide
  induction width generalizing n with
  | zero => exact List.not_mem_nil
  | succ width ih =>
    rw [hex, List.mem_append, List.mem_singleton]
    exact not_or.mpr ⟨ih _, hdigit _ (Nat.mod_lt n (by decide))⟩

theorem return_not_mem_escapeChar (c : Char) : '\r' ∉ escapeChar c := by
  by_cases hr : c = '\r'
  · subst hr
    decide
  · unfold escapeChar
    split_ifs <;> simp [return_not_mem_hex, Ne.symm hr]

theorem return_not_mem_string (s : String) : '\r' ∉ (string s).toList := by
  simp [toList_string, return_not_mem_escapeChar]

theorem return_not_mem_breakLine (level : Nat) : '\r' ∉ (breakLine level).toList := by
  simp [breakLine, List.mem_replicate]

theorem return_not_mem_onLines {level : Nat} {parts : List String}
    (h : ∀ part ∈ parts, '\r' ∉ part.toList) : '\r' ∉ (onLines level parts).toList := by
  induction parts with
  | nil => simp [onLines]
  | cons part parts ih =>
    obtain ⟨hpart, hparts⟩ := List.forall_mem_cons.mp h
    cases parts with
    | nil => rwa [onLines_singleton]
    | cons next parts =>
      rw [toList_onLines_cons]
      simp [hpart, return_not_mem_breakLine, ih hparts]

theorem return_not_mem_enclose {left right : String} {level : Nat} {parts : List String}
    (hleft : '\r' ∉ left.toList) (hright : '\r' ∉ right.toList)
    (h : ∀ part ∈ parts, '\r' ∉ part.toList) :
    '\r' ∉ (enclose left right level parts).toList := by
  cases parts with
  | nil => simp [enclose, hleft, hright]
  | cons part parts =>
    rw [toList_enclose_cons]
    simp [hleft, hright, return_not_mem_breakLine, return_not_mem_onLines h]

theorem return_not_mem_toDigits (n : Nat) : '\r' ∉ Nat.toDigits 10 n :=
  fun h => absurd (isDigit_of_mem_toDigits h) (by decide)

theorem indentedItems_eq_map (level : Nat) (items : List Json) :
    indentedItems level items = items.map (indented level) := by
  induction items with
  | nil => rfl
  | cons j items ih => rw [indentedItems, ih, List.map_cons]

theorem indentedMembers_eq_map (level : Nat) (members : List (String × Json)) :
    indentedMembers level members
      = members.map fun m => string m.1 ++ ": " ++ m.2.indented level := by
  induction members with
  | nil => rfl
  | cons m members ih => rw [indentedMembers, ih, List.map_cons]

theorem Legible.return_not_mem {j : Json} (h : j.Legible) (level : Nat) :
    '\r' ∉ (j.indented level).toList := by
  induction h generalizing level with
  | null => simp [indented]
  | @bool b => cases b <;> simp [indented]
  | @int n _ =>
    cases n with
    | ofNat n =>
      rw [toList_indented_ofNat]
      exact return_not_mem_toDigits n
    | negSucc n =>
      rw [toList_indented_negSucc]
      simp [return_not_mem_toDigits]
  | str => exact return_not_mem_string _
  | arr _ ih =>
    refine return_not_mem_enclose (by decide) (by decide) fun part hpart => ?_
    rw [indentedItems_eq_map] at hpart
    obtain ⟨j, hj, rfl⟩ := List.mem_map.mp hpart
    exact ih j hj (level + 1)
  | obj _ _ ih =>
    refine return_not_mem_enclose (by decide) (by decide) fun part hpart => ?_
    rw [indentedMembers_eq_map] at hpart
    obtain ⟨m, hm, rfl⟩ := List.mem_map.mp hpart
    simp [return_not_mem_string, ih m hm (level + 1)]

/-- Nothing changes in the text when its line ends are unified. -/
theorem Legible.unifyLines_pretty {j : Json} (h : j.Legible) : unifyLines j.pretty = j.pretty := by
  rw [unifyLines, pretty, unifyChars_of_not_mem (h.return_not_mem 0), String.ofList_toList]

end Json

end Simian
