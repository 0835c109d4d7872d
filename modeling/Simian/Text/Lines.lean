/-!
# Lines

Cutting a text into lines that keep their line feed, and the reading of foreign line ends.
Nothing is lost by cutting: the lines in order are the text. Lines can be taken out of a text, which
then has the other lines.
-/

namespace Simian.Text

set_option autoImplicit false

/-- The lines of a text, each with its line feed; only the last may lack one. -/
def lineChars : List Char → List (List Char)
  | [] => []
  | c :: rest =>
    if c = '\n' then [c] :: lineChars rest
    else match lineChars rest with
      | [] => [[c]]
      | line :: lines => (c :: line) :: lines

@[simp] theorem lineChars_nil : lineChars [] = [] := rfl

@[simp] theorem lineChars_newline (s : List Char) :
    lineChars ('\n' :: s) = ['\n'] :: lineChars s := by simp [lineChars]

theorem flatten_lineChars (s : List Char) : (lineChars s).flatten = s := by
  induction s with
  | nil => rfl
  | cons c s ih =>
    unfold lineChars
    split
    · simp [ih]
    · split
      · next h => simpa [h] using ih
      · next h => simpa [h] using ih

theorem ne_nil_of_mem_lineChars {s line : List Char} (h : line ∈ lineChars s) : line ≠ [] := by
  induction s generalizing line with
  | nil => simp at h
  | cons c s ih =>
    unfold lineChars at h
    split at h
    · rcases List.mem_cons.mp h with rfl | h
      · simp
      · exact ih h
    · split at h
      · simp_all
      · next hs =>
        rcases List.mem_cons.mp h with rfl | h
        · simp
        · exact ih (hs ▸ List.mem_cons_of_mem _ h)

def lines (s : String) : List String := (lineChars s.toList).map String.ofList

/-! ## Lines taken out of a text -/

/-- Lines with no line feed but at their ends, where only the last may lack one. -/
inductive Lined : List (List Char) → Prop where
  | nil : Lined []
  | last {s : List Char} : s ≠ [] → '\n' ∉ s → Lined [s]
  | cons {s : List Char} {ls : List (List Char)} : '\n' ∉ s → Lined ls →
      Lined ((s ++ ['\n']) :: ls)

theorem lineChars_of_not_mem {s : List Char} (hs : s ≠ []) (h : '\n' ∉ s) : lineChars s = [s] := by
  induction s with
  | nil => exact absurd rfl hs
  | cons c s ih =>
    have hc : c ≠ '\n' := fun hc => h (hc ▸ List.mem_cons_self)
    have hrest : '\n' ∉ s := fun hc => h (List.mem_cons_of_mem c hc)
    cases s with
    | nil => rw [lineChars, if_neg hc, lineChars_nil]
    | cons d s => rw [lineChars, if_neg hc, ih (List.cons_ne_nil d s) hrest]

theorem lineChars_append_newline {s : List Char} (h : '\n' ∉ s) (rest : List Char) :
    lineChars (s ++ '\n' :: rest) = (s ++ ['\n']) :: lineChars rest := by
  induction s with
  | nil => exact lineChars_newline rest
  | cons c s ih =>
    have hc : c ≠ '\n' := fun hc => h (hc ▸ List.mem_cons_self)
    have hrest : '\n' ∉ s := fun hc => h (List.mem_cons_of_mem c hc)
    rw [List.cons_append, lineChars, if_neg hc, ih hrest]
    rfl

theorem lined_lineChars (s : List Char) : Lined (lineChars s) := by
  induction s with
  | nil => exact .nil
  | cons c s ih =>
    by_cases hc : c = '\n'
    · subst hc
      rw [lineChars_newline]
      exact .cons List.not_mem_nil ih
    · rw [lineChars, if_neg hc]
      generalize lineChars s = ls at ih
      have hfree {t : List Char} (ht : '\n' ∉ t) : '\n' ∉ c :: t :=
        List.not_mem_cons_of_ne_of_not_mem (Ne.symm hc) ht
      cases ih with
      | nil => exact .last (List.cons_ne_nil c []) (hfree List.not_mem_nil)
      | last _ ht => exact .last (List.cons_ne_nil c _) (hfree ht)
      | cons ht hls => exact .cons (hfree ht) hls

theorem Lined.lineChars_flatten {ls : List (List Char)} (h : Lined ls) :
    lineChars ls.flatten = ls := by
  induction h with
  | nil => rfl
  | last hs h =>
    rw [List.flatten_singleton]
    exact lineChars_of_not_mem hs h
  | cons h _ ih =>
    rw [List.flatten_cons, List.append_assoc, List.singleton_append, lineChars_append_newline h, ih]

theorem Lined.filter {ls : List (List Char)} (h : Lined ls) (keep : List Char → Bool) :
    Lined (ls.filter keep) := by
  induction h with
  | nil => exact .nil
  | @last s hs h =>
    rw [List.filter_cons]
    split
    · exact .last hs h
    · exact .nil
  | @cons s ls h _ ih =>
    rw [List.filter_cons]
    split
    · exact .cons h ih
    · exact ih

/-- A text that is left when lines are taken out has the remaining lines. -/
theorem lines_join_filter (keep : String → Bool) (s : String) :
    lines (String.join ((lines s).filter keep)) = (lines s).filter keep := by
  have hlined := (lined_lineChars s.toList).filter (keep ∘ String.ofList)
  have hchars : (String.join ((lines s).filter keep)).toList =
      ((lineChars s.toList).filter (keep ∘ String.ofList)).flatten := by
    rw [String.toList_join, lines, List.filter_map, List.flatMap_map]
    simp [List.flatMap_def]
  rw [lines, hchars, hlined.lineChars_flatten, lines, List.filter_map]

/-! ## Foreign line ends -/

/-- Each line end, be it a line feed, a carriage return or both in a row, as one line feed. -/
def unifyChars : List Char → List Char
  | [] => []
  | '\r' :: '\n' :: rest => '\n' :: unifyChars rest
  | '\r' :: rest => '\n' :: unifyChars rest
  | c :: rest => c :: unifyChars rest

def unifyLines (s : String) : String := String.ofList (unifyChars s.toList)

theorem unifyChars_of_not_mem {s : List Char} (h : '\r' ∉ s) : unifyChars s = s := by
  fun_induction unifyChars s with
  | case1 => rfl
  | case2 => simp at h
  | case3 => simp at h
  | case4 c rest _ _ ih => rw [ih (fun hr => h (List.mem_cons_of_mem c hr))]

end Simian.Text
