import Simian.CommandLine.Listing
import Simian.Proofs.Grammar.Drawn
import Simian.Proofs.Legible
import Simian.Proofs.Storing

/-!
# Emitted trees run as their sources

A program that is stored beside its source and run from there prints, refuses and traces what the
source does when it is run itself. The text of the stored tree is read back as what was written, for
every source whose lines and columns are numbers that can be read.
-/

namespace Simian

open Text
set_option autoImplicit false

/-! ## Programs as JSON -/

/-- Line and column have no more digits than may be read. -/
def Token.Placed (t : Token) : Prop :=
  Short t.position.line.natAbs ∧ Short t.position.column.natAbs

theorem Token.Placed.legible {t : Token} (h : t.Placed) : t.toJson.Legible := by
  have hkeys : ["kind", "literal", "line", "column"].Nodup := by decide
  refine .obj hkeys ?_
  simpa using ⟨.str, .str, .int h.1, .int h.2⟩

theorem NodeClass.keys_nodup (cls : NodeClass) (own : Option Token) :
    ("__node__" :: ((own.map fun _ => "token").toList ++ cls.fields)).Nodup := by
  have hnode : "__node__" ∉ cls.fields := fun h => (ne_of_mem_fields h).1 rfl
  have htoken : "token" ∉ cls.fields := fun h => (ne_of_mem_fields h).2 rfl
  cases own <;> simp [hnode, htoken, cls.fields_nodup]

theorem legible_node {cls : NodeClass} {own : Option Token} {fields : List Tree}
    (hlength : fields.length = cls.fields.length) (hown : ∀ t, own = some t → t.Placed)
    (hfields : ∀ t ∈ fields, t.toJson.Legible) : (Tree.node cls own fields).toJson.Legible := by
  have hkeys : Assoc.keys (Tree.members cls own fields)
      = "__node__" :: ((own.map fun _ => "token").toList ++ cls.fields) := by
    rw [Assoc.keys, Tree.members, List.map_cons, List.map_append, Tree.toJsons_eq_map,
      List.map_fst_zip (by rw [List.length_map, hlength])]
    cases own <;> rfl
  refine .obj (hkeys ▸ cls.keys_nodup own) ?_
  intro m hm
  rcases List.mem_cons.mp hm with rfl | hm
  · exact .str
  rcases List.mem_append.mp hm with hm | hm
  · obtain ⟨t, ht, rfl⟩ := Option.map_eq_some_iff.mp (Option.mem_toList.mp hm)
    exact (hown t ht).legible
  · obtain ⟨t, ht, hj⟩ := List.mem_map.mp (Tree.toJsons_eq_map fields ▸ (List.of_mem_zip hm).2)
    exact hj ▸ hfields t ht

theorem legible_list {ts : List Tree} (h : ∀ t ∈ ts, t.toJson.Legible) :
    (Tree.list ts).toJson.Legible := by
  refine .arr fun j hj => ?_
  rw [Tree.toJsons_eq_map] at hj
  obtain ⟨t, ht, rfl⟩ := List.mem_map.mp hj
  exact h t ht

namespace Node

theorem legible_toTrees {ns : List Node} (h : ∀ n ∈ ns, n.toTree.toJson.Legible) :
    (Tree.list (toTrees ns)).toJson.Legible := by
  refine legible_list fun t ht => ?_
  rw [toTrees_eq_map] at ht
  obtain ⟨n, hn, rfl⟩ := List.mem_map.mp ht
  exact h n hn

theorem legible_ident {x : Ident} (h : x.token.Placed) : x.toTree.toJson.Legible :=
  legible_node rfl (fun _ ht => Option.some.inj ht ▸ h) (List.forall_mem_singleton.mpr .str)

theorem legible_literal {v : Int} (h : 0 ≤ v ∧ v ≤ Int64.max) : (Json.int v).Legible := by
  have hmax : Short Int64.max.natAbs := by decide
  exact .int (hmax.mono (by omega))

theorem Everywhere.token {P : Token → Prop} {n : Node} {t : Token} (h : n.Everywhere (Drawn P))
    (ht : n.token? = some t) : P t := by
  refine h.here.tokens t ?_
  cases n <;> cases ht <;> simp [ownTokens, token?]

theorem Built.legible {n : Node} (h : n.Built) (hd : n.Everywhere (Drawn Token.Placed)) :
    n.toTree.toJson.Legible := by
  induction h with
  | @letStatement t x e _ ih =>
    have hx : x.token.Placed := hd.here.tokens _ (by simp [ownTokens])
    have he := ih (hd.inside e (by simp [nested, parts]))
    exact legible_node rfl (fun _ => hd.token) (by simp [legible_ident hx, he])
  | @returnStatement t value _ ih =>
    cases value with
    | none => exact legible_node rfl (fun _ => hd.token) (by simp [Tree.toJson, Json.Legible.null])
    | some e =>
      have he := ih e rfl (hd.inside e (by simp [nested, parts]))
      exact legible_node rfl (fun _ => hd.token) (by simp [he])
  | @expressionStatement t e _ ih =>
    have he := ih (hd.inside e (by simp [nested, parts]))
    exact legible_node rfl (fun _ => hd.token) (by simp [he])
  | @block t ss _ ih =>
    have hss := legible_toTrees fun s hs => ih s hs (hd.inside s hs)
    exact legible_node rfl (fun _ => hd.token) (by simp [hss])
  | @ident x => exact legible_ident (hd.token rfl)
  | @integer t n _ _ =>
    have hn := legible_literal (hd.here.literal n rfl)
    exact legible_node rfl (fun _ => hd.token) (by simp [Tree.toJson, hn])
  | string => exact legible_node rfl (fun _ => hd.token) (by simp [Tree.toJson, Json.Legible.str])
  | boolean => exact legible_node rfl (fun _ => hd.token) (by simp [Tree.toJson, Json.Legible.bool])
  | @array t es _ ih =>
    have hes := legible_toTrees fun e he => ih e he (hd.inside e he)
    exact legible_node rfl (fun _ => hd.token) (by simp [hes])
  | @prefixOp t op e _ ih =>
    have he := ih (hd.inside e (by simp [nested, parts]))
    exact legible_node rfl (fun _ => hd.token) (by simp [Tree.toJson, Json.Legible.str, he])
  | @infixOp t op l r _ _ ihl ihr =>
    have hl := ihl (hd.inside l (by simp [nested, parts]))
    have hr := ihr (hd.inside r (by simp [nested, parts]))
    exact legible_node rfl (fun _ => hd.token) (by simp [Tree.toJson, Json.Legible.str, hl, hr])
  | @conditional t c a b _ _ _ ihc iha ihb =>
    have hc := ihc (hd.inside c (by simp [nested, parts]))
    have ha := iha (hd.inside a (by simp [nested, parts]))
    cases b with
    | none =>
      exact legible_node rfl (fun _ => hd.token) (by simp [Tree.toJson, Json.Legible.null, hc, ha])
    | some e =>
      have he := ihb e rfl (hd.inside e (by simp [nested, parts]))
      exact legible_node rfl (fun _ => hd.token) (by simp [hc, ha, he])
  | @function t u ps ss _ ih =>
    have hps : (Tree.list (ps.map Ident.toTree)).toJson.Legible := by
      refine legible_list fun tree htree => ?_
      obtain ⟨x, hx, rfl⟩ := List.mem_map.mp htree
      exact legible_ident (hd.here.tokens _ (List.mem_cons_of_mem t (List.mem_map_of_mem hx)))
    have hbody := ih (hd.inside _ List.mem_cons_self)
    exact legible_node rfl (fun _ => hd.token) (by simp [hps, hbody])
  | @call t f es _ _ ihf ihes =>
    have hf := ihf (hd.inside f List.mem_cons_self)
    have hes := legible_toTrees fun e he => ihes e he (hd.inside e (List.mem_cons_of_mem f he))
    exact legible_node rfl (fun _ => hd.token) (by simp [hf, hes])
  | @index t c i _ _ ihc ihi =>
    have hc := ihc (hd.inside c (by simp [nested, parts]))
    have hi := ihi (hd.inside i (by simp [nested, parts]))
    exact legible_node rfl (fun _ => hd.token) (by simp [hc, hi])

theorem legible_program {ns : List Node} (h : ∀ n ∈ ns, n.toTree.toJson.Legible) :
    (program ns).toTree.toJson.Legible :=
  legible_node rfl nofun (List.forall_mem_singleton.mpr (legible_toTrees h))

end Node

/-- What a source holds is stored in a text that can be read again, unless its lines or columns are
numbers of more digits than may be read. -/
theorem legible_of_parse {source : String} {parsed : Parsed} (h : parse source = .ok parsed)
    (hlength : Short (source.length + 1)) : parsed.program.toTree.toJson.Legible := by
  have hplaced : ∀ t ∈ (tokenize source).tokens, t.Placed := by
    intro t ht
    obtain ⟨hline, hline', hcolumn, hcolumn'⟩ := tokenize_within source t ht
    exact ⟨hlength.mono (by omega), hlength.mono (by omega)⟩
  exact Node.legible_program fun n hn =>
    (built_of_parse h n hn).legible (drawn_of_parse h hplaced n hn)

/-! ## Names of emitted files -/

theorem splitSlashes_append (cs : List Char) : ∃ before last, splitSlashes cs = before ++ [last] ∧
    ∀ ending, '/' ∉ ending → splitSlashes (cs ++ ending) = before ++ [last ++ ending] := by
  induction cs with
  | nil =>
    refine ⟨[], [], rfl, fun ending hending => ?_⟩
    induction ending with
    | nil => rfl
    | cons c ending ih =>
      obtain ⟨hc, hending⟩ := not_or.mp (mt List.mem_cons.mpr hending)
      have hsplit : splitSlashes ending = [ending] := ih hending
      change splitSlashes (c :: ending) = [c :: ending]
      rw [splitSlashes, if_neg (Ne.symm hc), hsplit]
  | cons c cs ih =>
    obtain ⟨before, last, hcs, happend⟩ := ih
    by_cases hc : c = '/'
    · refine ⟨[] :: before, last, ?_, fun ending hending => ?_⟩
      · rw [splitSlashes, if_pos hc, hcs, List.cons_append]
      · rw [List.cons_append, splitSlashes, if_pos hc, happend ending hending, List.cons_append]
    · cases before with
      | nil =>
        refine ⟨[], c :: last, ?_, fun ending hending => ?_⟩
        · rw [splitSlashes, if_neg hc, hcs]
          rfl
        · rw [List.cons_append, splitSlashes, if_neg hc, happend ending hending]
          rfl
      | cons part before =>
        refine ⟨(c :: part) :: before, last, ?_, fun ending hending => ?_⟩
        · rw [splitSlashes, if_neg hc, hcs]
          rfl
        · rw [List.cons_append, splitSlashes, if_neg hc, happend ending hending]
          rfl

namespace FilePath

/-- What follows a dot has no part in the root. -/
theorem rootOf_append_dot (cs ending : List Char) : rootOf (cs ++ '.' :: ending) = rootOf cs := by
  obtain _ | ⟨c, cs⟩ := cs
  · rfl
  by_cases hc : c = '/'
  · subst hc
    obtain _ | ⟨d, cs⟩ := cs
    · rfl
    by_cases hd : d = '/'
    · subst hd
      obtain _ | ⟨e, cs⟩ := cs
      · rfl
      by_cases he : e = '/'
      · subst he
        rfl
      · simp [rootOf, he]
    · simp [rootOf, hd]
  · simp [rootOf, hc]

/-- A name that starts with no dash and ends in the name of a file, neither in a slash nor in a
component that is a single dot. -/
structure Plain (name : String) : Prop where
  start : name.toList.head? ≠ some '-'
  last : (splitSlashes name.toList).getLast? ≠ some [] ∧
    (splitSlashes name.toList).getLast? ≠ some ['.']

theorem Plain.ne_empty {name : String} (h : Plain name) : name ≠ "" := by
  rintro rfl
  exact absurd rfl h.last.1

theorem isComponent_iff (part : List Char) :
    (String.ofList part != "" && String.ofList part != ".") = true ↔ part ≠ [] ∧ part ≠ ['.'] := by
  have hempty : "" = String.ofList [] := rfl
  have hdot : "." = String.ofList ['.'] := rfl
  rw [Bool.and_eq_true, bne_iff_ne, bne_iff_ne, hempty, hdot, ne_eq, ne_eq, String.ofList_inj,
    String.ofList_inj]

open CommandLine in
/-- The path that is emitted to is that of the name with the ending behind it. -/
theorem Plain.ofString_append {name : String} (h : Plain name) :
    ofString (name ++ emittedEnding) = (ofString name).withEnding emittedEnding := by
  obtain ⟨before, last, hsplit, happend⟩ := splitSlashes_append name.toList
  obtain ⟨hnil, hdot⟩ := h.last
  rw [hsplit, List.getLast?_concat, ne_eq, Option.some_inj] at hnil hdot
  have hending : emittedEnding.toList = '.' :: "ast.json".toList := rfl
  have hlong : last ++ emittedEnding.toList ≠ ['.'] := by
    intro heq
    have hlength := congrArg List.length heq
    rw [List.length_append, hending] at hlength
    simp at hlength
  have hkept := (isComponent_iff last).mpr ⟨hnil, hdot⟩
  have hkept' := (isComponent_iff (last ++ emittedEnding.toList)).mpr ⟨by simp [hnil], hlong⟩
  rw [String.ofList_append, String.ofList_toList] at hkept'
  rw [ofString, ofString, withEnding, String.toList_append, happend _ (by decide), hsplit, hending,
    rootOf_append_dot, ← hending]
  simp only [List.map_append, List.map_cons, List.map_nil, List.filter_append, List.filter_cons,
    hkept, hkept', if_true, List.filter_nil, List.dropLast_concat, List.getLast?_concat,
    Option.map_some, Option.toList_some, String.ofList_append, String.ofList_toList]

end FilePath

/-! ## Command lines -/

namespace CommandLine

/-- A command line asks for a task. -/
def Asks (args : List String) (task : Task) : Prop :=
  (Options.read args).map Options.task = .ok task

theorem run_of_asks {args : List String} {task : Task} (h : Asks args task)
    (find : FilePath → Found) (input : String) : run args find input = task.run find input := by
  obtain ⟨options, hread, rfl⟩ := Tree.map_eq_ok.mp h
  rw [run, hread]

theorem word_of_plain {text : String} (h : text.toList.head? ≠ some '-') :
    word text = .argument text := by
  unfold word
  split
  · next heq => exact absurd (congrArg List.head? heq) h
  · next heq => exact absurd (congrArg List.head? heq) h
  · next heq => exact absurd (congrArg List.head? heq) h
  · rfl

theorem words_plain {text : String} (h : text.toList.head? ≠ some '-') (rest : List String) :
    words (text :: rest) = .argument text :: words rest := by
  have hne : text ≠ "--" := by
    rintro rfl
    exact absurd rfl h
  rw [words, if_neg hne, word_of_plain h]

theorem words_verbose (n : Nat) (rest : List String) :
    words (List.replicate n "-v" ++ rest)
      = List.replicate n (.short .verbose []) ++ words rest := by
  induction n with
  | zero => rfl
  | succ n ih => rw [List.replicate_succ, List.cons_append, words, if_neg (by decide), ih]; rfl

theorem readWords_verbose (n : Nat) (p : Progress) (ws : List Word) :
    readWords p (List.replicate n (.short .verbose []) ++ ws) = readWords
      { p with options := { p.options with verbosity := p.options.verbosity + n } } ws := by
  induction n generalizing p with
  | zero => rfl
  | succ n ih =>
    rw [List.replicate_succ, List.cons_append, readWords]
    change readWords { p with options := { p.options with verbosity := p.options.verbosity + 1 } }
      (List.replicate n (.short .verbose []) ++ ws) = _
    rw [ih, Nat.add_right_comm, Nat.add_assoc]

/-- Marks of verbosity are counted and leave the reading of what follows as it is. -/
theorem read_verbose {n : Nat} {rest : List String} {ws : List Word} {options : Options}
    {taken : Bool} (hrest : words rest = ws) (hws : ws.contains .ambiguous = false)
    (hread : readWords ⟨⟨n, false, none, none, none⟩, false, false⟩ ws
      = .ok ⟨options, taken, false⟩) :
    Options.read (List.replicate n "-v" ++ rest) = .ok options := by
  have hambiguous : (words (List.replicate n "-v" ++ rest)).contains .ambiguous = false := by
    rw [words_verbose, hrest]
    simpa using hws
  have hwords : readWords .start (words (List.replicate n "-v" ++ rest))
      = .ok ⟨options, taken, false⟩ := by
    rw [words_verbose, hrest, readWords_verbose]
    simpa [Progress.start] using hread
  simp only [Options.read, hambiguous, hwords]
  rfl

theorem named_of_ne_empty {name : String} (h : name ≠ "") :
    named (some name) = some (.ofString name) := if_neg (by simpa using h)

theorem asks_runProgram {name : String} (h : FilePath.Plain name) (n : Nat) :
    Asks (List.replicate n "-v" ++ [name]) (.runProgram (.ofString name) n) := by
  have hread : Options.read (List.replicate n "-v" ++ [name])
      = .ok ⟨n, false, none, none, some name⟩ :=
    read_verbose (words_plain h.start []) rfl rfl
  rw [Asks, hread, Except.map, Options.task, named_of_ne_empty h.ne_empty]
  rfl

theorem asks_emitAst {name : String} (h : FilePath.Plain name) :
    Asks ["--emit-ast", name] (.emitAst (.ofString name)) := by
  have hwords : words ["--emit-ast", name] = [.long .emitAst none, .argument name] := by
    rw [words, words_plain h.start]
    rfl
  have hread : Options.read (List.replicate 0 "-v" ++ ["--emit-ast", name])
      = .ok ⟨0, false, some name, none, none⟩ := read_verbose hwords rfl rfl
  rw [List.replicate_zero, List.nil_append] at hread
  rw [Asks, hread, Except.map, Options.task, named_of_ne_empty h.ne_empty]

theorem asks_runTree {name : String} (h : FilePath.Plain name) (n : Nat) :
    Asks (List.replicate n "-v" ++ ["--ast", name ++ emittedEnding])
      (.runTree ((FilePath.ofString name).withEnding emittedEnding) n) := by
  have hstart : (name ++ emittedEnding).toList.head? ≠ some '-' := by
    obtain ⟨c, cs, hcs⟩ := List.exists_cons_of_ne_nil (mt String.toList_eq_nil_iff.mp h.ne_empty)
    have hname := h.start
    rw [hcs] at hname
    rw [String.toList_append, hcs]
    exact hname
  have hwords : words ["--ast", name ++ emittedEnding]
      = [.long .ast none, .argument (name ++ emittedEnding)] := by
    rw [words, words_plain hstart]
    rfl
  have hread : Options.read (List.replicate n "-v" ++ ["--ast", name ++ emittedEnding])
      = .ok ⟨n, false, none, some (name ++ emittedEnding), none⟩ := read_verbose hwords rfl rfl
  have hne : name ++ emittedEnding ≠ "" := by
    simp [h.ne_empty]
  rw [Asks, hread, Except.map, Options.task, named_of_ne_empty hne, h.ofString_append]
  rfl

/-! ## Runs -/

/-- A file can be written under the path: neither the path nor a component is too long. -/
def Fits (target : FilePath) : Prop :=
  target.isLong = false ∧ target.parts.any FilePath.isLongComponent = false

/-- What is found after a report: the files that it wrote, and else what was there before. -/
def Report.leaves (report : Report) (find : FilePath → Found) (path : FilePath) : Found :=
  match report.written.lookup path.text with
  | some text => .file text
  | none => find path

/-- The text that is written for a program is read as what was written. -/
def Reloads (statements : List Node) : Prop :=
  Json.read (unifyLines (emitted statements)) = .ok (Node.program statements).toTree.toJson

variable {path target : FilePath} {text : String} {statements : List Node} {verbosity : Nat}
  {find : FilePath → Found}

theorem reloads_of_length {source : String} (h : parseStrict source = .ok statements)
    (hlength : Short (source.length + 1)) : Reloads statements := by
  have hlegible := legible_of_parse (parseStrict_eq_ok_iff.mp h) hlength
  exact (congrArg Json.read hlegible.unifyLines_pretty).trans hlegible.read_pretty

theorem emitTo_of_fits (h : Fits target) (statements : List Node) : emitTo target statements =
    ⟨.ok 0, target.text ++ "\n", "", [(target.text, emitted statements)]⟩ := by
  rw [emitTo, h.1, h.2]
  rfl

theorem fits_of_exit (h : (emitTo target statements).exit = .ok 0) : Fits target := by
  unfold emitTo at h
  split at h
  · cases h
  · next hlong => simpa [Fits] using hlong

theorem withFile_file {found : Found} (h : found = .file text) (path : FilePath)
    (k : String → Report) : withFile path found k = k (unifyLines text) := by
  rw [h, withFile]

theorem run_emitAst (hfind : find path = .file text)
    (hparse : parseStrict (unifyLines text) = .ok statements) (input : String) :
    (Task.emitAst path).run find input = emitTo (path.withEnding emittedEnding) statements := by
  rw [Task.run, withFile_file hfind, withProgram, hparse]

theorem run_runProgram (hfind : find path = .file text)
    (hparse : parseStrict (unifyLines text) = .ok statements) (input : String) :
    (Task.runProgram path verbosity).run find input = execute verbosity statements := by
  rw [Task.run, withFile_file hfind, withProgram, hparse]

theorem run_runTree (hfind : find path = .file (emitted statements)) (h : Reloads statements)
    (hbuilt : ∀ n ∈ statements, n.Built) (input : String) :
    (Task.runTree path verbosity).run find input = execute verbosity statements := by
  have hread : Tree.read (unifyLines (emitted statements))
      = .ok (Node.program statements).toTree := by
    rw [Tree.read, h]
    simp only [Tree.ofJson_toJson (Node.program_fitting hbuilt)]
  rw [Task.run, withFile_file hfind]
  simp only [hread]
  rw [executeTree, Node.ofTree_program hbuilt]
  rfl

/-- A program that is emitted and run from the file runs as its source does: however the command
lines are spelled and whatever the input is, the report is the same in its exit, its output, its
errors and its trace. Emitting succeeds wherever a file can be written, and what is written is read
back for every source whose lines and columns are numbers that can be read. That plain command lines
ask for the three tasks is `asks_runProgram`, `asks_emitAst` and `asks_runTree`. -/
theorem emitted_runs_as_source {direct emission again : List String}
    (hdirect : Asks direct (.runProgram path verbosity)) (hemission : Asks emission (.emitAst path))
    (hagain : Asks again (.runTree (path.withEnding emittedEnding) verbosity))
    (hfind : find path = .file text) (hparse : parseStrict (unifyLines text) = .ok statements)
    (input input' input'' : String) :
    ((run emission find input).exit = .ok 0 ↔ Fits (path.withEnding emittedEnding)) ∧
    (Short ((unifyLines text).length + 1) → Reloads statements) ∧
    (Reloads statements → (run emission find input).exit = .ok 0 →
      run again ((run emission find input).leaves find) input' = run direct find input'') := by
  have hemit : run emission find input = emitTo (path.withEnding emittedEnding) statements :=
    (run_of_asks hemission find input).trans (run_emitAst hfind hparse input)
  refine ⟨⟨fun h => ?_, fun h => ?_⟩, reloads_of_length hparse, fun hreloads hexit => ?_⟩
  · rw [hemit] at h
    exact fits_of_exit h
  · rw [hemit, emitTo_of_fits h]
  · rw [hemit] at hexit
    have hleaves : (run emission find input).leaves find (path.withEnding emittedEnding)
        = .file (emitted statements) := by
      rw [hemit, emitTo_of_fits (fits_of_exit hexit), Report.leaves, List.lookup_cons_self]
    have hbuilt : ∀ n ∈ statements, n.Built := built_of_parse (parseStrict_eq_ok_iff.mp hparse)
    rw [run_of_asks hagain, run_runTree hleaves hreloads hbuilt, run_of_asks hdirect,
      run_runProgram hfind hparse]

/-- A program that prints and then fails, with a trace and foreign line ends. -/
theorem emitted_runs_as_source_failing :
    ∃ find, find = Listing.find [("prog.mk", "puts(1);\r\nlet x = 2; x / 0")] ∧
      (run ["-v", "prog.mk"] find "").stdout = "1\n" ∧
      (run ["-v", "prog.mk"] find "").stderr = "ERROR: division by zero\n" ∧
      run ["-v", "--ast", "prog.mk.ast.json"] ((run ["--emit-ast", "prog.mk"] find "").leaves find)
        "" = run ["-v", "prog.mk"] find "" := by
  refine ⟨_, rfl, rfl, rfl, ?_⟩
  have hplain : FilePath.Plain "prog.mk" := ⟨by decide, by decide⟩
  have hfind : Listing.find [("prog.mk", "puts(1);\r\nlet x = 2; x / 0")] (.ofString "prog.mk")
      = .file "puts(1);\r\nlet x = 2; x / 0" := rfl
  obtain ⟨statements, hparse⟩ : ∃ statements,
      parseStrict (unifyLines "puts(1);\r\nlet x = 2; x / 0") = .ok statements := ⟨_, rfl⟩
  have hlength : Short ((unifyLines "puts(1);\r\nlet x = 2; x / 0").length + 1) := by decide
  have hfits : Fits ((FilePath.ofString "prog.mk").withEnding emittedEnding) := ⟨rfl, rfl⟩
  obtain ⟨hexit, hreloads, hrun⟩ := emitted_runs_as_source (asks_runProgram hplain 1)
    (asks_emitAst hplain) (asks_runTree hplain 1) hfind hparse "" "" ""
  exact hrun (hreloads hlength) (hexit.mpr hfits)

end CommandLine

end Simian
