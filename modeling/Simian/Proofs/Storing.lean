import Mathlib.Data.List.Forall2
import Simian.Node.Stored
import Simian.Proofs.Parser.Built
import Simian.Tree.Codec

/-!
# Stored trees come back

A tree that is stored and read again is the same tree, its tokens and their places included, and
what is read from any JSON value is stored and read again as itself. A program that was parsed can
be stored and comes back as the program that it was.
-/

namespace Simian

set_option autoImplicit false

@[simp] theorem Token.ofJson_toJson (t : Token) : Token.ofJson t.toJson = .ok t := by
  simp [Token.toJson, Token.ofJson, Kind.ofJson, Position.ofMember, List.lookup_cons]

namespace NodeClass

theorem fields_nodup (c : NodeClass) : c.fields.Nodup := by cases c <;> decide

/-- The fields of a node are told apart from its other members. -/
theorem ne_of_mem_fields {c : NodeClass} {key : String} (h : key ∈ c.fields) :
    key ≠ "__node__" ∧ key ≠ "token" := by
  have hall : ∀ k ∈ c.fields, k ≠ "__node__" ∧ k ≠ "token" := by cases c <;> decide
  exact hall key h

end NodeClass

namespace Tree

/-- Every node in the tree has a token just if its class keeps one, and a value for each field. -/
inductive Fitting : Tree → Prop where
  | null : Fitting .null
  | bool {b : Bool} : Fitting (.bool b)
  | int {n : Int} : Fitting (.int n)
  | text {s : String} : Fitting (.text s)
  | list {items : List Tree} : (∀ t ∈ items, Fitting t) → Fitting (.list items)
  | token {t : Token} : Fitting (.token t)
  | node {cls : NodeClass} {own : Option Token} {fields : List Tree} :
      own.isSome = cls.hasToken → fields.length = cls.fields.length → (∀ t ∈ fields, Fitting t) →
      Fitting (.node cls own fields)

/-! ## Members of an object -/

theorem bind_eq_ok {ε α β : Type} {x : Except ε α} {f : α → Except ε β} {b : β} :
    (x >>= f) = .ok b ↔ ∃ a, x = .ok a ∧ f a = .ok b := by
  cases x <;> simp [bind, Except.bind]

theorem map_eq_ok {ε α β : Type} {x : Except ε α} {f : α → β} {b : β} :
    x.map f = .ok b ↔ ∃ a, x = .ok a ∧ f a = b := by
  cases x <;> simp [Except.map]

theorem lookup_decodeMembers (ms : List (String × Json)) (key : String) :
    (decodeMembers ms).lookup key = (ms.lookup key).map ofJson := by
  induction ms with
  | nil => rfl
  | cons m ms ih =>
    obtain ⟨k, j⟩ := m
    rw [decodeMembers, List.lookup_cons, List.lookup_cons, ih]
    split <;> rfl

theorem pick_cons (decoded : List (String × Except DecodeFault Tree)) (key : String)
    (keys : List String) :
    pick decoded (key :: keys) = (do
      let t ← (decoded.lookup key).getD (.ok .null)
      return t :: (← pick decoded keys)) := by
  rw [pick]
  split <;> next h => rw [h]; rfl

/-- What picking the values of fields gives: a value that was decoded, or null. -/
theorem pick_eq_ok_iff {decoded : List (String × Except DecodeFault Tree)} {keys : List String}
    {ts : List Tree} :
    pick decoded keys = .ok ts ↔
      List.Forall₂ (fun key t => (decoded.lookup key).getD (.ok .null) = .ok t) keys ts := by
  induction keys generalizing ts with
  | nil => simp [pick, eq_comm]
  | cons key keys ih =>
    rw [pick_cons, List.forall₂_cons_left_iff, bind_eq_ok]
    constructor
    · rintro ⟨t, ht, h⟩
      obtain ⟨rest, hrest, h⟩ := bind_eq_ok.mp h
      cases h
      exact ⟨t, rest, ht, ih.mp hrest, rfl⟩
    · rintro ⟨t, rest, ht, hrest, rfl⟩
      exact ⟨t, ht, bind_eq_ok.mpr ⟨rest, ih.mpr hrest, rfl⟩⟩

/-- In pairs of distinct keys with values, after others, each key has its own value. -/
theorem forall₂_lookup_zip {α : Type} (before : List (String × α)) {keys : List String}
    {vs : List α} (hkeys : keys.Nodup) (hlength : keys.length = vs.length)
    (hbefore : ∀ key ∈ keys, before.lookup key = none) :
    List.Forall₂ (fun key v => (before ++ keys.zip vs).lookup key = some v) keys vs := by
  induction keys generalizing before vs with
  | nil =>
    obtain rfl := List.length_eq_zero_iff.mp hlength.symm
    exact .nil
  | cons key keys ih =>
    obtain _ | ⟨v, vs⟩ := vs
    · cases hlength
    obtain ⟨hnot, hnodup⟩ := List.nodup_cons.mp hkeys
    have hhead : (before ++ (key, v) :: keys.zip vs).lookup key = some v := by
      rw [List.lookup_append, hbefore key List.mem_cons_self, List.lookup_cons_self, Option.none_or]
    have htail := ih (before ++ [(key, v)]) hnodup (Nat.succ.inj hlength) fun k hk => by
      have hne : k ≠ key := fun h => hnot (h ▸ hk)
      rw [List.lookup_append, hbefore k (List.mem_cons_of_mem _ hk), Option.none_or,
        List.lookup_cons, beq_false_of_ne hne]
      rfl
    rw [List.append_assoc] at htail
    exact .cons hhead htail

/-! ## Stored and read -/

theorem toJsons_eq_map (ts : List Tree) : toJsons ts = ts.map toJson := by
  induction ts with
  | nil => rfl
  | cons t ts ih => rw [toJsons, ih, List.map_cons]

theorem ofJsons_toJsons {ts : List Tree} (h : ∀ t ∈ ts, ofJson t.toJson = .ok t) :
    ofJsons (toJsons ts) = .ok ts := by
  induction ts with
  | nil => rfl
  | cons t ts ih =>
    rw [toJsons, ofJsons, h t List.mem_cons_self, ih fun u hu => h u (List.mem_cons_of_mem t hu)]
    rfl

/-- The members of a stored node. -/
def members (cls : NodeClass) (own : Option Token) (fields : List Tree) : List (String × Json) :=
  ("__node__", .str cls.name) ::
    ((own.map fun t => ("token", t.toJson)).toList ++ cls.fields.zip (toJsons fields))

theorem pick_members {cls : NodeClass} {own : Option Token} {fields : List Tree}
    (hlength : fields.length = cls.fields.length)
    (h : ∀ t ∈ fields, ofJson t.toJson = .ok t) :
    pick (decodeMembers (members cls own fields)) cls.fields = .ok fields := by
  have hkeys : ∀ key ∈ cls.fields,
      (("__node__", Json.str cls.name) :: (own.map fun t => ("token", t.toJson)).toList).lookup key
        = none := by
    intro key hkey
    obtain ⟨hnode, htoken⟩ := NodeClass.ne_of_mem_fields hkey
    cases own <;> simp [List.lookup_cons, beq_false_of_ne hnode, beq_false_of_ne htoken]
  have hvalues : List.Forall₂ (fun key j => (members cls own fields).lookup key = some j)
      cls.fields (toJsons fields) :=
    forall₂_lookup_zip _ cls.fields_nodup (by rw [toJsons_eq_map, List.length_map, hlength]) hkeys
  rw [toJsons_eq_map, List.forall₂_map_right_iff] at hvalues
  refine pick_eq_ok_iff.mpr (List.forall₂_iff_zip.mpr ⟨hlength.symm, fun {key t} hmem => ?_⟩)
  have hkey : (members cls own fields).lookup key = some t.toJson :=
    (List.forall₂_iff_zip.mp hvalues).2 hmem
  rw [lookup_decodeMembers, hkey]
  exact h t (List.of_mem_zip hmem).2

theorem pickToken_members {cls : NodeClass} {own : Option Token} (fields : List Tree)
    (h : own.isSome = cls.hasToken) : pickToken cls (members cls own fields) = .ok own := by
  cases own with
  | none =>
    have hno : cls.hasToken = false := h.symm
    rw [pickToken, hno]
    rfl
  | some t =>
    have hhas : cls.hasToken = true := h.symm
    have hlookup : (members cls (some t) fields).lookup "token" = some t.toJson := by
      simp [members, List.lookup_cons]
    rw [pickToken, hhas, if_pos rfl, hlookup]
    simp [Except.map]

theorem ofJson_toJson {t : Tree} (h : t.Fitting) : ofJson t.toJson = .ok t := by
  induction h with
  | list _ ih =>
    rw [toJson, ofJson, ofJsons_toJsons ih]
    rfl
  | @token t =>
    change (Token.ofJson t.toJson).map token = _
    rw [Token.ofJson_toJson]
    rfl
  | @node cls own fields hown hlength _ ih =>
    change ofMembers (members cls own fields) (decodeMembers (members cls own fields)) = _
    have hname : (members cls own fields).lookup "__node__" = some (.str cls.name) :=
      List.lookup_cons_self
    rw [ofMembers, hname]
    simp only [NodeClass.ofName?_name, pickToken_members fields hown, pick_members hlength ih]
    rfl
  | _ => rfl

theorem pickToken_isSome {cls : NodeClass} {ms : List (String × Json)} {own : Option Token}
    (h : pickToken cls ms = .ok own) : own.isSome = cls.hasToken := by
  unfold pickToken at h
  split at h
  · next hhas =>
    split at h
    · cases h
    · obtain ⟨t, -, rfl⟩ := map_eq_ok.mp h
      exact hhas.symm
  · next hhas =>
    cases h
    exact (Bool.eq_false_iff.mpr hhas).symm

/-- Whatever is read of members, the values of fields are among what they hold. -/
theorem fitting_of_ofMembers {ms : List (String × Json)}
    (hms : ∀ key t, (ms.lookup key).map ofJson = some (.ok t) → t.Fitting) {t : Tree}
    (h : ofMembers ms (decodeMembers ms) = .ok t) : t.Fitting := by
  have hpick : ∀ key u, ((decodeMembers ms).lookup key).getD (.ok .null) = .ok u → u.Fitting := by
    intro key u hu
    rw [lookup_decodeMembers] at hu
    cases hj : (ms.lookup key).map ofJson with
    | none =>
      rw [hj] at hu
      cases hu
      exact .null
    | some decoded =>
      rw [hj] at hu
      exact hms key u (hj.trans (congrArg some hu))
  unfold ofMembers at h
  split at h
  · split at h
    · split at h
      · next cls _ =>
        obtain ⟨own, hown, h⟩ := bind_eq_ok.mp h
        obtain ⟨fields, hfields, h⟩ := bind_eq_ok.mp h
        cases h
        have hpicked := pick_eq_ok_iff.mp hfields
        have hfitting := hpicked.flip.imp fun t key hkey => And.intro (hpick key t hkey) hkey
        exact .node (pickToken_isSome hown) hpicked.length_eq.symm
          ((List.forall₂_and_left _ _).mp hfitting).1
      · cases h
    all_goals cases h
  · split at h
    · obtain ⟨u, -, rfl⟩ := map_eq_ok.mp h
      exact .token
    · cases h

mutual

theorem fitting_of_ofJson {j : Json} {t : Tree} (h : ofJson j = .ok t) : t.Fitting := by
  cases j with
  | null => cases h; exact .null
  | bool b => cases h; exact .bool
  | int n => cases h; exact .int
  | float x => cases h
  | str s => cases h; exact .text
  | arr items =>
    rw [ofJson] at h
    obtain ⟨ts, hts, rfl⟩ := map_eq_ok.mp h
    exact .list (fitting_of_ofJsons hts)
  | obj members => exact fitting_of_ofMembers (fitting_of_member members) h

theorem fitting_of_ofJsons {js : List Json} {ts : List Tree} (h : ofJsons js = .ok ts) :
    ∀ t ∈ ts, t.Fitting := by
  cases js with
  | nil => cases h; exact fun t ht => absurd ht List.not_mem_nil
  | cons j js =>
    obtain ⟨t, ht, h⟩ := bind_eq_ok.mp h
    obtain ⟨rest, hrest, h⟩ := bind_eq_ok.mp h
    cases h
    exact List.forall_mem_cons.mpr ⟨fitting_of_ofJson ht, fitting_of_ofJsons hrest⟩

theorem fitting_of_member (ms : List (String × Json)) (key : String) (t : Tree)
    (h : (ms.lookup key).map ofJson = some (.ok t)) : t.Fitting := by
  match ms with
  | [] => cases h
  | (k, j) :: ms =>
    rw [List.lookup_cons] at h
    split at h
    · exact fitting_of_ofJson (Option.some.inj h)
    · exact fitting_of_member ms key t h

end

end Tree

/-! ## Programs -/

theorem Ident.toTree_fitting (x : Ident) : x.toTree.Fitting :=
  .node rfl rfl (List.forall_mem_singleton.mpr .text)

theorem Ident.listOfTrees?_map_toTree (ps : List Ident) :
    Ident.listOfTrees? (ps.map Ident.toTree) = some ps := by
  induction ps with
  | nil => rfl
  | cons p ps ih =>
    rw [Ident.listOfTrees?] at ih ⊢
    rw [List.map_cons, List.mapM_cons, Ident.ofTree?_toTree, ih]
    rfl

namespace Node

theorem toTrees_eq_map (ns : List Node) : toTrees ns = ns.map toTree := by
  induction ns with
  | nil => rfl
  | cons n ns ih => rw [toTrees, ih, List.map_cons]

theorem ofTrees_toTrees {ns : List Node} (h : ∀ n ∈ ns, ofTree n.toTree = n) :
    ofTrees (toTrees ns) = ns := by
  induction ns with
  | nil => rfl
  | cons n ns ih =>
    rw [toTrees, ofTrees, h n List.mem_cons_self, ih fun m hm => h m (List.mem_cons_of_mem n hm)]

/-- Where a node is left out null is stored, and no node is stored as null. -/
theorem Built.toTree_ne_null {n : Node} (h : n.Built) : n.toTree ≠ .null := by
  cases h with
  | @returnStatement t value _ => cases value <;> nofun
  | @conditional t c a b _ _ _ => cases b <;> nofun
  | _ => exact nofun

theorem Built.ofTree_toTree {n : Node} (h : n.Built) : ofTree n.toTree = n := by
  induction h with
  | letStatement _ ih => rw [toTree, ofTree, Ident.ofTree?_toTree, ih]
  | @returnStatement t value hvalue ih =>
    cases value with
    | none => rfl
    | some e => rw [toTree, ofTree, ih e rfl]; exact (hvalue e rfl).toTree_ne_null
  | expressionStatement _ ih => rw [toTree, ofTree, ih]
  | block _ ih => rw [toTree, ofTree, ofTrees_toTrees ih]
  | ident => rfl
  | integer _ _ => rfl
  | string => rfl
  | boolean => rfl
  | array _ ih => rw [toTree, ofTree, ofTrees_toTrees ih]
  | prefixOp _ ih => rw [toTree, ofTree, ih]
  | infixOp _ _ ihl ihr => rw [toTree, ofTree, ihl, ihr]
  | @conditional t c a b _ _ hb ihc iha ihb =>
    cases b with
    | none => rw [toTree, ofTree, ihc, iha]
    | some e => rw [toTree, ofTree, ihc, iha, ihb e rfl]; exact (hb e rfl).toTree_ne_null
  | function _ ih => rw [toTree, ofTree, Ident.listOfTrees?_map_toTree, ih]
  | call _ _ ihf ihes => rw [toTree, ofTree, ihf, ofTrees_toTrees ihes]
  | index _ _ ihc ihi => rw [toTree, ofTree, ihc, ihi]

theorem toTrees_fitting {ns : List Node} (h : ∀ n ∈ ns, n.toTree.Fitting) :
    (Tree.list (toTrees ns)).Fitting := by
  refine .list fun t ht => ?_
  rw [toTrees_eq_map] at ht
  obtain ⟨n, hn, rfl⟩ := List.mem_map.mp ht
  exact h n hn

theorem Built.toTree_fitting {n : Node} (h : n.Built) : n.toTree.Fitting := by
  induction h with
  | @letStatement t x e _ ih => exact .node rfl rfl (by simp [ih, x.toTree_fitting])
  | @returnStatement t value _ ih =>
    cases value with
    | none => exact .node rfl rfl (by simp [Tree.Fitting.null])
    | some e => exact .node rfl rfl (by simp [ih e rfl])
  | expressionStatement _ ih => exact .node rfl rfl (by simp [ih])
  | block _ ih => exact .node rfl rfl (by simp [toTrees_fitting ih])
  | @ident x => exact x.toTree_fitting
  | integer _ _ => exact .node rfl rfl (by simp [Tree.Fitting.int])
  | string => exact .node rfl rfl (by simp [Tree.Fitting.text])
  | boolean => exact .node rfl rfl (by simp [Tree.Fitting.bool])
  | array _ ih => exact .node rfl rfl (by simp [toTrees_fitting ih])
  | prefixOp _ ih => exact .node rfl rfl (by simp [Tree.Fitting.text, ih])
  | infixOp _ _ ihl ihr => exact .node rfl rfl (by simp [Tree.Fitting.text, ihl, ihr])
  | @conditional t c a b _ _ _ ihc iha ihb =>
    cases b with
    | none => exact .node rfl rfl (by simp [ihc, iha, Tree.Fitting.null])
    | some e => exact .node rfl rfl (by simp [ihc, iha, ihb e rfl])
  | @function t u ps ss _ ih =>
    have hps : (Tree.list (ps.map Ident.toTree)).Fitting := by
      refine .list fun t ht => ?_
      obtain ⟨x, -, rfl⟩ := List.mem_map.mp ht
      exact x.toTree_fitting
    exact .node rfl rfl (by simp [hps, ih])
  | call _ _ ihf ihes => exact .node rfl rfl (by simp [ihf, toTrees_fitting ihes])
  | index _ _ ihc ihi => exact .node rfl rfl (by simp [ihc, ihi])

theorem program_fitting {ns : List Node} (h : ∀ n ∈ ns, n.Built) :
    (program ns).toTree.Fitting := by
  have hstatements := toTrees_fitting fun n hn => (h n hn).toTree_fitting
  exact .node rfl rfl (List.forall_mem_singleton.mpr hstatements)

theorem ofTree_program {ns : List Node} (h : ∀ n ∈ ns, n.Built) :
    ofTree (program ns).toTree = program ns := by
  rw [toTree, ofTree, ofTrees_toTrees fun n hn => (h n hn).ofTree_toTree]

end Node

/-- A stored tree is read again as it was, whatever its nodes hold, and what can be read from a JSON
value can be stored. The tree of a program that was parsed can be, and means the program. -/
theorem stored_and_read :
    (∀ t : Tree, t.Fitting → Tree.ofJson t.toJson = .ok t) ∧
    (∀ (j : Json) (t : Tree), Tree.ofJson j = .ok t → t.Fitting ∧ Tree.ofJson t.toJson = .ok t) ∧
    ∀ (source : String) (parsed : Parsed), parse source = .ok parsed →
      parsed.program.toTree.Fitting ∧
      (Tree.ofJson parsed.program.toTree.toJson).map Node.ofTree = .ok parsed.program := by
  refine ⟨fun _ => Tree.ofJson_toJson, fun j t h => ?_, fun source parsed h => ?_⟩
  · have hfitting := Tree.fitting_of_ofJson h
    exact ⟨hfitting, Tree.ofJson_toJson hfitting⟩
  · have hbuilt := built_of_parse h
    have hfitting : parsed.program.toTree.Fitting := Node.program_fitting hbuilt
    have hmeaning : Node.ofTree parsed.program.toTree = parsed.program :=
      Node.ofTree_program hbuilt
    refine ⟨hfitting, ?_⟩
    rw [Tree.ofJson_toJson hfitting, Except.map, hmeaning]

/-- A name that is a large number and a value that is a token; an object with a token that has no
line, without its field and with a member too many; a program with a syntax error. -/
theorem stored_and_read_odd :
    (∃ t : Tree, t = .node .letStatement (some ⟨.letWord, "let", ⟨-1, 2⟩⟩)
        [.int 1180591620717411303424, .token ⟨.illegal, "?", ⟨3, 4⟩⟩] ∧ Tree.ofJson t.toJson = .ok t) ∧
    (∃ t, Tree.ofJson (.obj [("kind", .str "INT"), ("__node__", .str "Identifier"),
        ("token", .obj [("literal", .str "x"), ("kind", .str "IDENT"), ("column", .int 4)])])
          = .ok t ∧
      t = .node .identifier (some ⟨.ident, "x", ⟨0, 4⟩⟩) [.null] ∧ Tree.ofJson t.toJson = .ok t) ∧
    ∃ parsed, parse "let x 5; return if (a) \x7b b \x7d" = .ok parsed ∧
      parsed.statements.length = 1 ∧
      (Tree.ofJson parsed.program.toTree.toJson).map Node.ofTree = .ok parsed.program := by
  refine ⟨⟨_, rfl, ?_⟩, ?_, ?_⟩
  · exact stored_and_read.1 _
      (.node rfl rfl (List.forall_mem_cons.mpr ⟨.int, List.forall_mem_singleton.mpr .token⟩))
  · obtain ⟨t, h, ht⟩ : ∃ t, Tree.ofJson (.obj [("kind", .str "INT"),
        ("__node__", .str "Identifier"), ("token", .obj [("literal", .str "x"),
          ("kind", .str "IDENT"), ("column", .int 4)])]) = .ok t ∧
        t = .node .identifier (some ⟨.ident, "x", ⟨0, 4⟩⟩) [.null] := ⟨_, rfl, rfl⟩
    exact ⟨t, h, ht, (stored_and_read.2.1 _ t h).2⟩
  · obtain ⟨parsed, h, hone⟩ : ∃ parsed,
        parse "let x 5; return if (a) \x7b b \x7d" = .ok parsed ∧ parsed.statements.length = 1 :=
      ⟨_, rfl, rfl⟩
    exact ⟨parsed, h, hone, (stored_and_read.2.2 _ _ h).2⟩

end Simian
