import Mathlib.Logic.Relation
import Simian.Assoc
import Simian.Proofs.Storing

/-!
# What decoding reads

A JSON value can be changed in many places, at any depth, without another tree being read from it:
the order of members does not count, a node is read from its class and the fields of the class
alone, a field that is null need not be there, and neither does a line or column that is zero.
Which of these may be done to an object depends on how decoding reads it, as a node, as a token or
not at all, and that depends on the objects around it.
-/

namespace Simian

set_option autoImplicit false

namespace Assoc

variable {α : Type} {ms ms' : List (String × α)}

/-- The pairs but for those with a key. -/
def without (key : String) (ms : List (String × α)) : List (String × α) :=
  ms.filter fun m => m.1 != key

@[simp] theorem lookup_without_self (key : String) (ms : List (String × α)) :
    (without key ms).lookup key = none := by
  refine List.lookup_eq_none_iff.mpr fun m hm => ?_
  have hne : m.1 ≠ key := by simpa using (List.mem_filter.mp hm).2
  exact bne_iff_ne.mpr (Ne.symm hne)

theorem lookup_without_ne {key other : String} (h : other ≠ key) (ms : List (String × α)) :
    (without key ms).lookup other = ms.lookup other := by
  induction ms with
  | nil => rfl
  | cons m ms ih =>
    obtain ⟨k, v⟩ := m
    rw [without, List.filter_cons, List.lookup_cons]
    by_cases hk : k = key
    · subst hk
      rw [if_neg (by simp), beq_false_of_ne h]
      exact ih
    · rw [if_pos (by simpa using hk), List.lookup_cons]
      split
      · rfl
      · exact ih

theorem lookup_eq_some_of_mem (hkeys : (keys ms).Nodup) {key : String} {v : α}
    (h : (key, v) ∈ ms) : ms.lookup key = some v := by
  induction ms with
  | nil => exact absurd h List.not_mem_nil
  | cons m ms ih =>
    obtain ⟨k, w⟩ := m
    obtain ⟨hk, hms⟩ := List.nodup_cons.mp hkeys
    rcases List.mem_cons.mp h with heq | hmem
    · cases heq
      exact List.lookup_cons_self
    · have hne : key ≠ k := by
        rintro rfl
        exact hk (List.mem_map.mpr ⟨_, hmem, rfl⟩)
      rw [List.lookup_cons, beq_false_of_ne hne]
      exact ih hms hmem

/-- The order of pairs with distinct keys does not count. -/
theorem lookup_eq_of_perm (h : ms.Perm ms') (hkeys : (keys ms).Nodup) (key : String) :
    ms'.lookup key = ms.lookup key := by
  have hkeys' : (keys ms').Nodup := (h.map Prod.fst).nodup_iff.mp hkeys
  ext v
  exact ⟨fun hv => lookup_eq_some_of_mem hkeys (h.mem_iff.mpr (mem_of_lookup hv)),
    fun hv => lookup_eq_some_of_mem hkeys' (h.mem_iff.mp (mem_of_lookup hv))⟩

end Assoc

/-- The keys under which a node of the class has its token and its fields. -/
def NodeClass.keys (cls : NodeClass) : List String :=
  (if cls.hasToken then ["token"] else []) ++ cls.fields

namespace Json

/-! ## Changes that are not read -/

/-- The class of the node that an object is decoded as. -/
def nodeClass? (ms : List (String × Json)) : Option NodeClass :=
  match ms.lookup "__node__" with
  | some (.str name) => NodeClass.ofName? name
  | _ => none

/-- How decoding reads a value. -/
inductive Reading where
  /-- As a tree, or as a part of one. -/
  | tree
  /-- As the token of a node. -/
  | token
  | unread
  deriving DecidableEq, Repr

namespace Reading

/-- How the items of an array are read. -/
def item : Reading → Reading
  | tree => tree
  | _ => unread

/-- How the value under a key of an object is read. Besides its class, a node has its fields read as
trees and its token as one; what a token has is no tree and no token. -/
def member (ms : List (String × Json)) (key : String) : Reading → Reading
  | tree =>
    match nodeClass? ms with
    | some cls =>
      if key ∈ cls.fields then tree
      else if key = "token" ∧ cls.hasToken then token
      else unread
    | none => unread
  | _ => unread

/-- An object that is read so is read as a token. -/
def IsToken (ms : List (String × Json)) (r : Reading) : Prop :=
  r = token ∨ r = tree ∧ ms.lookup "__node__" = none

end Reading

/-- One change, in one place of a value that is read in a certain way. -/
inductive Edited : Reading → Json → Json → Prop where
  | reordered {r : Reading} {ms ms' : List (String × Json)} : (Assoc.keys ms).Nodup →
      ms.Perm ms' → Edited r (.obj ms) (.obj ms')
  /-- A field that the class of a node does not have is set to anything. -/
  | added {ms : List (String × Json)} {cls : NodeClass} {key : String} (j : Json) :
      nodeClass? ms = some cls → key ≠ "__node__" → key ∉ cls.keys →
      Edited .tree (.obj ms) (.obj (Assoc.set key j ms))
  | nullDropped {ms : List (String × Json)} {cls : NodeClass} {key : String} :
      nodeClass? ms = some cls → key ≠ "token" → ms.lookup key = some .null →
      Edited .tree (.obj ms) (.obj (Assoc.without key ms))
  | zeroDropped {r : Reading} {ms : List (String × Json)} {key : String} : r.IsToken ms →
      key = "line" ∨ key = "column" → ms.lookup key = some (.int 0) →
      Edited r (.obj ms) (.obj (Assoc.without key ms))
  | item {r : Reading} {before after : List Json} {j j' : Json} : Edited r.item j j' →
      Edited r (.arr (before ++ j :: after)) (.arr (before ++ j' :: after))
  | member {r : Reading} {ms : List (String × Json)} {key : String} {j j' : Json} :
      ms.lookup key = some j → Edited (r.member ms key) j j' →
      Edited r (.obj ms) (.obj (Assoc.set key j' ms))

/-- An array or an object. -/
def IsCompound : Json → Prop
  | .arr _ | .obj _ => True
  | _ => False

theorem Edited.isCompound {r : Reading} {j j' : Json} (h : Edited r j j') :
    j.IsCompound ∧ j'.IsCompound := by
  cases h <;> exact ⟨trivial, trivial⟩

end Json

open Json

/-! ## Tokens -/

/-- Two objects have the same under the keys of a token. -/
structure SameToken (ms ms' : List (String × Json)) : Prop where
  kind : ms'.lookup "kind" = ms.lookup "kind"
  literal : ms'.lookup "literal" = ms.lookup "literal"
  line : Position.ofMember (ms'.lookup "line") = Position.ofMember (ms.lookup "line")
  column : Position.ofMember (ms'.lookup "column") = Position.ofMember (ms.lookup "column")

section
variable {ms ms' : List (String × Json)} {t : Token} {key : String}

theorem SameToken.of_lookup (h : ∀ key, ms'.lookup key = ms.lookup key) : SameToken ms ms' :=
  ⟨h _, h _, congrArg _ (h _), congrArg _ (h _)⟩

theorem SameToken.ofJson_eq (h : SameToken ms ms') :
    Token.ofJson (.obj ms') = Token.ofJson (.obj ms) := by
  simp only [Token.ofJson, h.kind, h.literal, h.line, h.column]

theorem lookup_of_token (h : Token.ofJson (.obj ms) = .ok t) :
    (∃ name, ms.lookup "kind" = some (.str name)) ∧
      ∃ literal, ms.lookup "literal" = some (.str literal) := by
  simp only [Token.ofJson] at h
  split at h
  · cases h
  · next kind hkind =>
    split at h
    · cases h
    · next k hk =>
      split at h
      · next literal hliteral =>
        cases kind with
        | str name => exact ⟨⟨name, hkind⟩, literal, hliteral⟩
        | _ => cases hk
      · cases h

/-- What is inside of a token is no part of its kind or its literal, and no line or column. -/
theorem SameToken.of_set {j j' : Json} (h : Token.ofJson (.obj ms) = .ok t)
    (hkey : ms.lookup key = some j) (hj : j.IsCompound) (hj' : j'.IsCompound) :
    SameToken ms (Assoc.set key j' ms) := by
  obtain ⟨⟨name, hkind⟩, literal, hliteral⟩ := lookup_of_token h
  have hne {k s : String} (hk : ms.lookup k = some (.str s)) : k ≠ key := by
    rintro rfl
    cases hk.symm.trans hkey
    exact hj
  have hplace (k : String) : Position.ofMember ((Assoc.set key j' ms).lookup k) =
      Position.ofMember (ms.lookup k) := by
    by_cases hk : k = key
    · subst hk
      rw [Assoc.lookup_set_self, hkey]
      cases j <;> cases j' <;> first | rfl | exact hj.elim | exact hj'.elim
    · rw [Assoc.lookup_set_ne j' ms hk]
  exact ⟨Assoc.lookup_set_ne j' ms (hne hkind), Assoc.lookup_set_ne j' ms (hne hliteral),
    hplace _, hplace _⟩

theorem SameToken.of_without (hkey : key = "line" ∨ key = "column")
    (hzero : ms.lookup key = some (.int 0)) : SameToken ms (Assoc.without key ms) := by
  have hplace (k : String) : Position.ofMember ((Assoc.without key ms).lookup k) =
      Position.ofMember (ms.lookup k) := by
    by_cases hk : k = key
    · subst hk
      rw [Assoc.lookup_without_self, hzero]
      rfl
    · rw [Assoc.lookup_without_ne hk]
  have hkind : "kind" ≠ key := by rcases hkey with rfl | rfl <;> decide
  have hliteral : "literal" ≠ key := by rcases hkey with rfl | rfl <;> decide
  exact ⟨Assoc.lookup_without_ne hkind ms, Assoc.lookup_without_ne hliteral ms, hplace _, hplace _⟩

end

/-! ## Nodes -/

namespace Tree

/-- What is read where a member belongs: null if there is none. -/
def ofMember (member : Option Json) : Except DecodeFault Tree := (member.map ofJson).getD (.ok .null)

/-- The members from which a node is read. -/
structure ReadsNode (ms : List (String × Json)) (cls : NodeClass) (own : Option Token)
    (fields : List Tree) : Prop where
  named : nodeClass? ms = some cls
  own : pickToken cls ms = .ok own
  fields : List.Forall₂ (fun key t => ofMember (ms.lookup key) = .ok t) cls.fields fields

section
variable {ms ms' : List (String × Json)} {cls : NodeClass} {own : Option Token}
  {fields : List Tree} {key : String}

theorem nodeClass?_of_lookup (h : ms'.lookup "__node__" = ms.lookup "__node__") :
    nodeClass? ms' = nodeClass? ms := by
  rw [nodeClass?, nodeClass?, h]

theorem lookup_of_nodeClass? (h : nodeClass? ms = some cls) :
    ∃ name, ms.lookup "__node__" = some (.str name) ∧ NodeClass.ofName? name = some cls := by
  unfold nodeClass? at h
  split at h
  · next name hname => exact ⟨name, hname, h⟩
  · cases h

theorem pick_decodeMembers_iff : pick (decodeMembers ms) cls.fields = .ok fields ↔
    List.Forall₂ (fun key t => ofMember (ms.lookup key) = .ok t) cls.fields fields := by
  simp only [pick_eq_ok_iff, lookup_decodeMembers, ofMember]

/-- An object is read as a node, or it has no class and is read as a token. -/
theorem ofJson_obj_iff {t : Tree} : ofJson (.obj ms) = .ok t ↔
    (∃ cls own fields, ReadsNode ms cls own fields ∧ t = .node cls own fields) ∨
    ms.lookup "__node__" = none ∧ ∃ tok, Token.ofJson (.obj ms) = .ok tok ∧ t = .token tok := by
  rw [ofJson]
  constructor
  · intro h
    unfold ofMembers at h
    split at h
    · next name hname =>
      split at h
      · next s =>
        split at h
        · next cls hcls =>
          obtain ⟨own, hown, h⟩ := bind_eq_ok.mp h
          obtain ⟨fields, hfields, h⟩ := bind_eq_ok.mp h
          cases h
          have hclass : nodeClass? ms = some cls := by rw [nodeClass?, hname]; exact hcls
          exact .inl ⟨cls, own, fields, ⟨hclass, hown, pick_decodeMembers_iff.mp hfields⟩, rfl⟩
        · cases h
      all_goals cases h
    · next hnone =>
      split at h
      · obtain ⟨tok, htok, rfl⟩ := map_eq_ok.mp h
        exact .inr ⟨hnone, tok, htok, rfl⟩
      · cases h
  · rintro (⟨cls, own, fields, h, rfl⟩ | ⟨hnone, tok, htok, rfl⟩)
    · obtain ⟨name, hname, hcls⟩ := lookup_of_nodeClass? h.named
      rw [ofMembers, hname]
      simp only [hcls, h.own, pick_decodeMembers_iff.mpr h.fields]
      rfl
    · obtain ⟨⟨name, hkind⟩, literal, hliteral⟩ := lookup_of_token htok
      rw [ofMembers, hnone, hkind, hliteral]
      simp [htok, Except.map]

/-- A node is read as the same from members that are read as the same under its own keys. -/
theorem ReadsNode.of_members (h : ReadsNode ms cls own fields)
    (hnode : ms'.lookup "__node__" = ms.lookup "__node__")
    (htoken : cls.hasToken → ∀ j t, ms.lookup "token" = some j → Token.ofJson j = .ok t →
      ∃ j', ms'.lookup "token" = some j' ∧ Token.ofJson j' = .ok t)
    (hfields : ∀ key ∈ cls.fields, ∀ t, ofMember (ms.lookup key) = .ok t →
      ofMember (ms'.lookup key) = .ok t) : ReadsNode ms' cls own fields where
  named := (nodeClass?_of_lookup hnode).trans h.named
  own := by
    have hown := h.own
    unfold pickToken at hown ⊢
    split at hown
    · next hhas =>
      rw [if_pos hhas]
      cases hj : ms.lookup "token" with
      | none =>
        rw [hj] at hown
        cases hown
      | some j =>
        rw [hj] at hown
        obtain ⟨t, ht, rfl⟩ := map_eq_ok.mp hown
        obtain ⟨j', hj', ht'⟩ := htoken hhas j t hj ht
        rw [hj']
        exact map_eq_ok.mpr ⟨t, ht', rfl⟩
    · next hhas =>
      rw [if_neg hhas]
      exact hown
  fields := by
    have hread := (List.forall₂_iff_zip.mp h.fields)
    refine List.forall₂_iff_zip.mpr ⟨hread.1, fun {key t} hmem => ?_⟩
    exact hfields key (List.of_mem_zip hmem).1 t (hread.2 hmem)

/-- Only what is under the keys of a node counts. -/
theorem ReadsNode.of_lookup (h : ReadsNode ms cls own fields)
    (hnode : ms'.lookup "__node__" = ms.lookup "__node__")
    (hkeys : ∀ key ∈ cls.keys, ms'.lookup key = ms.lookup key) : ReadsNode ms' cls own fields := by
  refine h.of_members hnode (fun hhas j t hj ht => ⟨j, ?_, ht⟩) fun key hkey t ht => ?_
  · rw [hkeys "token" (by simp [NodeClass.keys, hhas]), hj]
  · rwa [hkeys key (List.mem_append_right _ hkey)]

theorem ReadsNode.of_added (h : ReadsNode ms cls own fields) (j : Json) (hnode : key ≠ "__node__")
    (hkey : key ∉ cls.keys) : ReadsNode (Assoc.set key j ms) cls own fields :=
  h.of_lookup (Assoc.lookup_set_ne j ms (Ne.symm hnode)) fun _ hk =>
    Assoc.lookup_set_ne j ms fun heq => hkey (heq ▸ hk)

theorem ReadsNode.of_nullDropped (h : ReadsNode ms cls own fields) (htoken : key ≠ "token")
    (hnull : ms.lookup key = some .null) : ReadsNode (Assoc.without key ms) cls own fields := by
  obtain ⟨name, hname, -⟩ := lookup_of_nodeClass? h.named
  have hnode : "__node__" ≠ key := by
    rintro rfl
    cases hname.symm.trans hnull
  refine h.of_members (Assoc.lookup_without_ne hnode ms) (fun _ j t hj ht => ⟨j, ?_, ht⟩)
    fun _ _ t ht => ?_
  · rw [Assoc.lookup_without_ne (Ne.symm htoken), hj]
  · next k _ =>
    by_cases hk : k = key
    · subst hk
      rw [hnull] at ht
      rw [Assoc.lookup_without_self]
      exact ht
    · rwa [Assoc.lookup_without_ne hk]

end

end Tree

/-! ## Changed values -/

/-- What is read of the one value is read of the other. -/
def Json.Reading.Keeps (j j' : Json) : Reading → Prop
  | .tree => ∀ t, Tree.ofJson j = .ok t → Tree.ofJson j' = .ok t
  | .token => ∀ t, Token.ofJson j = .ok t → Token.ofJson j' = .ok t
  | .unread => True

namespace Tree

variable {ms ms' : List (String × Json)} {key : String} {j j' : Json}

/-- A change of one member, which keeps what is read of it. -/
theorem ReadsNode.of_member {cls : NodeClass} {own : Option Token} {fields : List Tree}
    (h : ReadsNode ms cls own fields) (hkey : ms.lookup key = some j) (hj : j.IsCompound)
    (hkeeps : (Reading.tree.member ms key).Keeps j j') :
    ReadsNode (Assoc.set key j' ms) cls own fields := by
  obtain ⟨name, hname, -⟩ := lookup_of_nodeClass? h.named
  have hnode : "__node__" ≠ key := by
    rintro rfl
    cases hname.symm.trans hkey
    exact hj
  simp only [Reading.member, h.named] at hkeeps
  refine h.of_members (Assoc.lookup_set_ne j' ms hnode) (fun hhas i t hi ht => ?_)
    fun k hk t ht => ?_
  · by_cases heq : "token" = key
    · subst heq
      have hfield : "token" ∉ cls.fields := fun hmem => (NodeClass.ne_of_mem_fields hmem).2 rfl
      rw [if_neg hfield, if_pos ⟨rfl, hhas⟩] at hkeeps
      cases hkey.symm.trans hi
      exact ⟨j', Assoc.lookup_set_self _ _ _, hkeeps t ht⟩
    · exact ⟨i, (Assoc.lookup_set_ne j' ms heq).trans hi, ht⟩
  · by_cases heq : k = key
    · subst heq
      rw [if_pos hk] at hkeeps
      rw [hkey] at ht
      rw [Assoc.lookup_set_self]
      exact hkeeps t ht
    · rwa [Assoc.lookup_set_ne j' ms heq]

theorem ofJsons_of_item {before after : List Json} {ts : List Tree}
    (h : ∀ t, ofJson j = .ok t → ofJson j' = .ok t)
    (hts : ofJsons (before ++ j :: after) = .ok ts) : ofJsons (before ++ j' :: after) = .ok ts := by
  induction before generalizing ts with
  | nil =>
    obtain ⟨t, ht, hrest⟩ := bind_eq_ok.mp hts
    exact bind_eq_ok.mpr ⟨t, h t ht, hrest⟩
  | cons i before ih =>
    obtain ⟨t, ht, hrest⟩ := bind_eq_ok.mp hts
    obtain ⟨rest, hrest, hcons⟩ := bind_eq_ok.mp hrest
    exact bind_eq_ok.mpr ⟨t, ht, bind_eq_ok.mpr ⟨rest, ih hrest, hcons⟩⟩

/-- Members that are read as the same, be it as a node or as a token. -/
theorem ofJson_obj_of {t : Tree} (h : ofJson (.obj ms) = .ok t)
    (hnode : ∀ cls own fields, ReadsNode ms cls own fields → ReadsNode ms' cls own fields)
    (htoken : ms.lookup "__node__" = none → ∀ tok, Token.ofJson (.obj ms) = .ok tok →
      ms'.lookup "__node__" = none ∧ SameToken ms ms') : ofJson (.obj ms') = .ok t := by
  rcases ofJson_obj_iff.mp h with ⟨cls, own, fields, hread, rfl⟩ | ⟨hnone, tok, htok, rfl⟩
  · exact ofJson_obj_iff.mpr (.inl ⟨cls, own, fields, hnode cls own fields hread, rfl⟩)
  · obtain ⟨hnone', hsame⟩ := htoken hnone tok htok
    exact ofJson_obj_iff.mpr (.inr ⟨hnone', tok, hsame.ofJson_eq.trans htok, rfl⟩)

end Tree

theorem Json.Edited.keeps {r : Reading} {j j' : Json} (h : Edited r j j') : r.Keeps j j' := by
  induction h with
  | @reordered r ms ms' hkeys hperm =>
    have hlookup := Assoc.lookup_eq_of_perm hperm hkeys
    have hsame := SameToken.of_lookup hlookup
    cases r with
    | tree =>
      intro t ht
      refine Tree.ofJson_obj_of ht (fun _ _ _ h => ?_) fun hnone _ _ => ?_
      · exact h.of_lookup (hlookup _) fun key _ => hlookup key
      · exact ⟨(hlookup _).trans hnone, hsame⟩
    | token => exact fun t ht => hsame.ofJson_eq.trans ht
    | unread => trivial
  | added j hcls hnode hkey =>
    intro t ht
    refine Tree.ofJson_obj_of ht (fun _ _ _ h => ?_) fun hnone _ _ => ?_
    · cases hcls.symm.trans h.named
      exact h.of_added j hnode hkey
    · rw [nodeClass?, hnone] at hcls
      cases hcls
  | nullDropped hcls htoken hnull =>
    intro t ht
    refine Tree.ofJson_obj_of ht (fun _ _ _ h => h.of_nullDropped htoken hnull) fun hnone _ _ => ?_
    rw [nodeClass?, hnone] at hcls
    cases hcls
  | @zeroDropped r ms key hr hkey hzero =>
    have hsame := SameToken.of_without hkey hzero
    have hnode : "__node__" ≠ key := by rcases hkey with rfl | rfl <;> decide
    cases r with
    | tree =>
      have hnone : ms.lookup "__node__" = none := by
        rcases hr with hr | hr
        · cases hr
        · exact hr.2
      intro t ht
      refine Tree.ofJson_obj_of ht (fun _ _ _ h => ?_) fun _ _ _ => ?_
      · obtain ⟨name, hname, -⟩ := Tree.lookup_of_nodeClass? h.named
        cases hname.symm.trans hnone
      · exact ⟨(Assoc.lookup_without_ne hnode ms).trans hnone, hsame⟩
    | token => exact fun t ht => hsame.ofJson_eq.trans ht
    | unread => trivial
  | @item r before after j j' _ ih =>
    cases r with
    | tree =>
      intro t ht
      rw [Tree.ofJson] at ht ⊢
      obtain ⟨ts, hts, rfl⟩ := Tree.map_eq_ok.mp ht
      exact Tree.map_eq_ok.mpr ⟨ts, Tree.ofJsons_of_item ih hts, rfl⟩
    | token => exact fun t ht => nomatch ht
    | unread => trivial
  | @member r ms key j j' hkey hedit ih =>
    obtain ⟨hj, hj'⟩ := hedit.isCompound
    cases r with
    | tree =>
      intro t ht
      refine Tree.ofJson_obj_of ht (fun _ _ _ h => h.of_member hkey hj ih) fun hnone tok htok => ?_
      have hnode : "__node__" ≠ key := by
        rintro rfl
        cases hnone.symm.trans hkey
      exact ⟨(Assoc.lookup_set_ne j' ms hnode).trans hnone, .of_set htok hkey hj hj'⟩
    | token => exact fun t ht => (SameToken.of_set ht hkey hj hj').ofJson_eq.trans ht
    | unread => trivial

end Simian
