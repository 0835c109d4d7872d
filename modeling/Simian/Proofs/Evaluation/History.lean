import Simian.Eval
import Simian.Proofs.Steps

/-!
# Look-up and the history of the scopes

Scopes are made, alone or inside others, and names are set in them. What a look-up gives can be read
off the whole of what was done: going outward, the first scope in which the name was ever set
answers with what it was set to last. A scope is enclosed only by scopes made before it, so that
going outward ends.
-/

namespace Simian

set_option autoImplicit false

/-- What was done to the scopes, the last thing outermost; `n` scopes were made. -/
inductive History : Nat → Type where
  | start : History 0
  | root {n : Nat} (before : History n) : History (n + 1)
  /-- A scope was made inside scope `e`. -/
  | inside {n : Nat} (before : History n) (e : Fin n) : History (n + 1)
  | set {n : Nat} (before : History n) (e : Fin n) (name : String) (v : Value) : History n

namespace Store

/-- The nearest of the scopes that enclose a scope. -/
def parent? (s : Store) (id : ScopeId) : Option ScopeId := (s.scope id).outer.head?

/-- The search for a name that looks into one scope after another, from scope `id` outward, ends
with `result`. -/
inductive Search (s : Store) (name : String) : (id : ScopeId) → (result : Option Value) → Prop where
  | found {id : ScopeId} {v : Value} : s.own? id name = some v → Search s name id (some v)
  | nowhere {id : ScopeId} : s.own? id name = none → s.parent? id = none → Search s name id none
  | outward {id p : ScopeId} {r : Option Value} : s.own? id name = none → s.parent? id = some p →
      Search s name p r → Search s name id r

/-- A scope stands inside one that was made before it and inside all that encloses that one. -/
def Nested (s : Store) : Prop :=
  ∀ id p, s.parent? id = some p → p < id ∧ (s.scope id).outer = s.chain p

end Store

namespace History

variable {n : Nat}

def store : {n : Nat} → History n → Store
  | _, start => ⟨#[]⟩
  | _, root h => h.store.addScope []
  | _, inside h e => h.store.addScope (h.store.chain e)
  | _, set h e name v => h.store.set e name v

/-- The scope inside which a scope was made. -/
def parent? : {n : Nat} → History n → ScopeId → Option ScopeId
  | _, start, _ => none
  | n + 1, root h, id => if id = n then none else h.parent? id
  | n + 1, inside h e, id => if id = n then some e else h.parent? id
  | _, set h .., id => h.parent? id

/-- What a name was last set to in the scope itself. -/
def last? (name : String) : {n : Nat} → History n → ScopeId → Option Value
  | _, start, _ => none
  | _, root h, id => h.last? name id
  | _, inside h _, id => h.last? name id
  | _, set h e other v, id => if id = e ∧ name = other then some v else h.last? name id

/-- From scope `id` outward one passes the scopes `near` and comes to scope `far`. -/
inductive Outward (h : History n) : ScopeId → (near : List ScopeId) → (far : ScopeId) → Prop where
  | here (id : ScopeId) : Outward h id [] id
  | next {id p far : ScopeId} {near : List ScopeId} : h.parent? id = some p →
      Outward h p near far → Outward h id (id :: near) far

/-- From scope `id` outward no scope nearer than scope `far` ever had the name set. -/
def Exposed (h : History n) (name : String) (id far : ScopeId) : Prop :=
  ∃ near, h.Outward id near far ∧ ∀ i ∈ near, h.last? name i = none

def Unset (h : History n) (name : String) (id : ScopeId) : Prop :=
  ∀ near far, h.Outward id near far → h.last? name far = none

/-- Evaluating the name in scope `id` gives `v` and changes nothing. -/
def Means (h : History n) (id : ScopeId) (name : String) (v : Value) : Prop :=
  ∀ verbosity call token (m : Machine),
    Eval.node verbosity call id (.ident ⟨token, name⟩) { m with store := h.store } =
      .ok v { m with store := h.store }

/-- What becomes of a name, looked up from scope `e` or set in it. -/
structure Recalled (h : History n) (e : Fin n) (name : String) : Prop where
  search (r : Option Value) : h.store.Search name e r ↔ r = h.store.get? e name
  found (v : Value) : h.store.get? e name = some v ↔
    ∃ far, h.Exposed name e far ∧ h.last? name far = some v
  missing : h.store.get? e name = none ↔ h.Unset name e
  changed (v : Value) (d : ScopeId) : h.Exposed name d e →
    (h.set e name v).store.get? d name = some v
  unchanged (v : Value) (d : ScopeId) (other : String) :
    (other = name → ¬ h.Exposed name d e) →
      (h.set e name v).store.get? d other = h.store.get? d other
  bound (v : Value) (far : ScopeId) : h.Exposed name e far → h.last? name far = some v →
    h.Means e name v
  builtin (b : Builtin) : b.name = name → h.Unset name e → h.Means e name (.builtin b)
  unknown : (∀ b : Builtin, b.name ≠ name) → h.Unset name e →
    ∃ error, h.Means e name (.error error) ∧ error.message = "identifier not found: " ++ name

end History

/-! ## Going outward in a store -/

namespace Store

variable {s : Store} {name : String}

theorem parent?_of_le {id : ScopeId} (h : s.scopes.size ≤ id) : s.parent? id = none := by
  rw [parent?, scope_of_le h]
  rfl

theorem parent?_set (s : Store) (e id : ScopeId) (name : String) (v : Value) :
    (s.set e name v).parent? id = s.parent? id := by
  rw [parent?, outer_set, parent?]

theorem parent?_addScope (s : Store) (outer : List ScopeId) (id : ScopeId) :
    (s.addScope outer).parent? id = if id = s.scopes.size then outer.head? else s.parent? id := by
  rw [parent?, scope_addScope]
  split <;> rfl

theorem chain_addScope {e : ScopeId} (he : e < s.scopes.size) (outer : List ScopeId) :
    (s.addScope outer).chain e = s.chain e := by
  rw [chain, scope_addScope_of_lt he, chain]

theorem Nested.set (h : s.Nested) (e : ScopeId) (name : String) (v : Value) :
    (s.set e name v).Nested := by
  intro id p hp
  rw [parent?_set] at hp
  rw [outer_set, chain_set]
  exact h id p hp

/-- A scope may be added alone or inside another one. -/
theorem Nested.addScope (h : s.Nested) {outer : List ScopeId}
    (ho : outer = [] ∨ ∃ e < s.scopes.size, outer = s.chain e) : (s.addScope outer).Nested := by
  intro id p hp
  rw [parent?_addScope] at hp
  split at hp
  · next hid =>
    subst hid
    rw [scope_addScope_size]
    rcases ho with rfl | ⟨e, he, rfl⟩
    · cases hp
    · cases hp
      exact ⟨he, (chain_addScope he _).symm⟩
  · next hid =>
    have hlt : id < s.scopes.size := by
      refine Nat.lt_of_not_le fun hle => ?_
      rw [parent?_of_le hle] at hp
      cases hp
    obtain ⟨hpid, houter⟩ := h id p hp
    exact ⟨hpid, by rw [scope_addScope_of_lt hlt, chain_addScope (Nat.lt_trans hpid hlt), houter]⟩

theorem Nested.chain_of_parent? (h : s.Nested) {id p : ScopeId} (hp : s.parent? id = some p) :
    s.chain id = id :: s.chain p := by
  rw [chain, (h id p hp).2]

theorem chain_of_parent?_none {id : ScopeId} (hp : s.parent? id = none) : s.chain id = [id] := by
  rw [chain, List.head?_eq_none_iff.mp hp]

theorem get?_of_own?_none {id : ScopeId} (ho : s.own? id name = none) :
    s.get? id name = (s.scope id).outer.findSome? fun i => s.own? i name := by
  rw [get?, chain, List.findSome?_cons, ho]

theorem Search.unique {id : ScopeId} {r r' : Option Value} (h : s.Search name id r)
    (h' : s.Search name id r') : r = r' := by
  induction h with
  | found ho =>
    cases h' with
    | found ho' => exact ho.symm.trans ho'
    | nowhere ho' | outward ho' => cases ho.symm.trans ho'
  | nowhere ho hp =>
    cases h' with
    | found ho' => cases ho.symm.trans ho'
    | nowhere => rfl
    | outward _ hp' => cases hp.symm.trans hp'
  | outward ho hp _ ih =>
    cases h' with
    | found ho' => cases ho.symm.trans ho'
    | nowhere _ hp' => cases hp.symm.trans hp'
    | outward _ hp' h' =>
      cases hp.symm.trans hp'
      exact ih h'

/-- The search ends, since every scope it goes on to was made before the one it comes from. -/
theorem Nested.search (h : s.Nested) (name : String) (id : ScopeId) :
    s.Search name id (s.get? id name) := by
  induction id using Nat.strongRecOn with
  | ind id ih =>
    cases ho : s.own? id name with
    | some v =>
      rw [get?_of_own? ho]
      exact .found ho
    | none =>
      rw [get?_of_own?_none ho]
      cases hp : s.parent? id with
      | none =>
        rw [List.head?_eq_none_iff.mp hp]
        exact .nowhere ho hp
      | some p =>
        obtain ⟨hlt, houter⟩ := h id p hp
        rw [houter]
        exact .outward ho hp (ih p hlt)

theorem Nested.search_iff (h : s.Nested) (id : ScopeId) (r : Option Value) :
    s.Search name id r ↔ r = s.get? id name :=
  ⟨fun hr => hr.unique (h.search name id), fun hr => hr ▸ h.search name id⟩

end Store

/-! ## The store of a history -/

namespace History

variable {n : Nat}

@[simp] theorem size_store : {n : Nat} → (h : History n) → h.store.scopes.size = n
  | _, start => rfl
  | _, root h => by rw [store, Store.size_addScope, size_store h]
  | _, inside h _ => by rw [store, Store.size_addScope, size_store h]
  | _, set h .. => by rw [store, Store.size_set, size_store h]

theorem nested_store : {n : Nat} → (h : History n) → h.store.Nested
  | _, start => fun _ _ hp => nomatch hp
  | _, root h => (nested_store h).addScope (.inl rfl)
  | _, inside h e => (nested_store h).addScope (.inr ⟨e, by simp, rfl⟩)
  | _, set h e name v => (nested_store h).set e name v

theorem parent?_store : {n : Nat} → (h : History n) → (id : ScopeId) →
    h.store.parent? id = h.parent? id
  | _, start, _ => rfl
  | _, root h, id => by
    rw [store, Store.parent?_addScope, size_store, parent?_store h, parent?]
    rfl
  | _, inside h e, id => by
    rw [store, Store.parent?_addScope, size_store, parent?_store h, parent?]
    rfl
  | _, set h .., id => by rw [store, Store.parent?_set, parent?_store h, parent?]

theorem own?_store (name : String) : {n : Nat} → (h : History n) → (id : ScopeId) →
    h.store.own? id name = h.last? name id
  | _, start, _ => rfl
  | _, root h, id => by rw [store, Store.own?_addScope, own?_store name h, last?]
  | _, inside h e, id => by rw [store, Store.own?_addScope, own?_store name h, last?]
  | _, set h e other v, id => by
    rw [store, Store.own?_set, own?_store name h, last?, size_store]
    simp

theorem outward_iff {h : History n} {id far : ScopeId} {near : List ScopeId} :
    h.Outward id near far ↔ ∃ rest, h.store.chain id = near ++ far :: rest := by
  constructor
  · intro hw
    induction hw with
    | here id => exact ⟨_, rfl⟩
    | next hp _ ih =>
      obtain ⟨rest, hrest⟩ := ih
      rw [← parent?_store] at hp
      exact ⟨rest, by rw [h.nested_store.chain_of_parent? hp, hrest, List.cons_append]⟩
  · rintro ⟨rest, hrest⟩
    induction near generalizing id with
    | nil =>
      cases hrest
      exact .here _
    | cons i near ih =>
      cases hp : h.store.parent? id with
      | none => simp [Store.chain_of_parent?_none hp] at hrest
      | some p =>
        rw [h.nested_store.chain_of_parent? hp, List.cons_append, List.cons.injEq] at hrest
        obtain ⟨rfl, hrest⟩ := hrest
        exact .next (by rwa [← parent?_store]) (ih hrest)

theorem get?_eq_some_iff (h : History n) (id : ScopeId) (name : String) (v : Value) :
    h.store.get? id name = some v ↔ ∃ far, h.Exposed name id far ∧ h.last? name far = some v := by
  rw [Store.get?, List.findSome?_eq_some_iff]
  simp only [own?_store]
  constructor
  · rintro ⟨near, far, rest, hchain, hv, hnear⟩
    exact ⟨far, ⟨near, outward_iff.mpr ⟨rest, hchain⟩, hnear⟩, hv⟩
  · rintro ⟨far, ⟨near, hw, hnear⟩, hv⟩
    obtain ⟨rest, hchain⟩ := outward_iff.mp hw
    exact ⟨near, far, rest, hchain, hv, hnear⟩

theorem get?_eq_none_iff (h : History n) (id : ScopeId) (name : String) :
    h.store.get? id name = none ↔ h.Unset name id := by
  rw [Store.get?, List.findSome?_eq_none_iff]
  simp only [own?_store]
  constructor
  · intro hnone near far hw
    obtain ⟨rest, hchain⟩ := outward_iff.mp hw
    exact hnone far (by simp [hchain])
  · intro hunset i hi
    obtain ⟨near, rest, hchain⟩ := List.append_of_mem hi
    exact hunset near i (outward_iff.mpr ⟨rest, hchain⟩)

/-! ## Setting a name once more -/

theorem lt_of_parent? {h : History n} {id p : ScopeId} (hp : h.parent? id = some p) : p < id :=
  (h.nested_store id p ((parent?_store h id).trans hp)).1

theorem Outward.le {h : History n} {id far : ScopeId} {near : List ScopeId}
    (hw : h.Outward id near far) : far ≤ id := by
  induction hw with
  | here => exact Nat.le_refl _
  | next hp _ ih => exact Nat.le_trans ih (Nat.le_of_lt (lt_of_parent? hp))

theorem Outward.lt {h : History n} {id far : ScopeId} {near : List ScopeId}
    (hw : h.Outward id near far) : ∀ i ∈ near, far < i := by
  induction hw with
  | here => exact fun _ hi => absurd hi List.not_mem_nil
  | next hp hw ih =>
    intro i hi
    rcases List.mem_cons.mp hi with rfl | hi
    · exact Nat.lt_of_le_of_lt hw.le (lt_of_parent? hp)
    · exact ih i hi

theorem Outward.of_mem {h : History n} {id far i : ScopeId} {near : List ScopeId}
    (hw : h.Outward id near far) (hi : i ∈ near) :
    ∃ nearer, h.Outward id nearer i ∧ nearer ⊆ near := by
  obtain ⟨rest, hrest⟩ := outward_iff.mp hw
  obtain ⟨nearer, between, rfl⟩ := List.append_of_mem hi
  refine ⟨nearer, outward_iff.mpr ⟨between ++ far :: rest, ?_⟩, List.subset_append_left _ _⟩
  rw [hrest, List.append_assoc, List.cons_append]

variable (h : History n) (e : Fin n) (name : String) (v : Value)

theorem outward_set {id far : ScopeId} {near : List ScopeId} :
    (h.set e name v).Outward id near far ↔ h.Outward id near far := by
  rw [outward_iff, outward_iff, store, Store.chain_set]

theorem last?_set (id : ScopeId) :
    (h.set e name v).last? name id = if id = e then some v else h.last? name id := by
  simp [last?]

theorem last?_eq_none_of_set {id : ScopeId} (hnone : (h.set e name v).last? name id = none) :
    id ≠ e ∧ h.last? name id = none := by
  rw [last?_set] at hnone
  split at hnone
  · cases hnone
  · next hne => exact ⟨hne, hnone⟩

theorem get?_set_of_exposed {d : ScopeId} (hx : h.Exposed name d e) :
    (h.set e name v).store.get? d name = some v := by
  obtain ⟨near, hw, hnear⟩ := hx
  refine (get?_eq_some_iff ..).mpr ⟨e, ⟨near, (outward_set ..).mpr hw, fun i hi => ?_⟩, ?_⟩
  · rw [last?_set, if_neg (Nat.ne_of_gt (hw.lt i hi)), hnear i hi]
  · rw [last?_set, if_pos rfl]

theorem exposed_set_iff {d far : ScopeId} (hx : ¬ h.Exposed name d e) :
    (h.set e name v).Exposed name d far ↔ h.Exposed name d far := by
  refine exists_congr fun near => ?_
  rw [outward_set]
  refine and_congr_right fun hw => ⟨fun hnear i hi => ?_, fun hnear i hi => ?_⟩
  · exact (last?_eq_none_of_set h e name v (hnear i hi)).2
  · have hne : i ≠ e := by
      rintro rfl
      obtain ⟨nearer, hw', hsub⟩ := hw.of_mem hi
      exact hx ⟨nearer, hw', fun j hj => hnear j (hsub hj)⟩
    rw [last?_set, if_neg hne, hnear i hi]

/-- Where scope `e` does not enclose, or a nearer scope has the name set, the look-up meets the
same scopes with the same bindings as before. -/
theorem get?_set_of_not_exposed {d : ScopeId} (hx : ¬ h.Exposed name d e) :
    (h.set e name v).store.get? d name = h.store.get? d name := by
  refine Option.ext fun w => ?_
  rw [get?_eq_some_iff, get?_eq_some_iff]
  refine exists_congr fun far => ?_
  rw [exposed_set_iff h e name v hx]
  refine and_congr_right fun hfar => ?_
  have hne : far ≠ e := fun heq => hx (heq ▸ hfar)
  rw [last?_set, if_neg hne]

/-! ## Evaluating a name -/

theorem node_ident (id : ScopeId) (verbosity : Nat) (call : Caller) (token : Token)
    (m : Machine) :
    Eval.node verbosity call id (.ident ⟨token, name⟩) { m with store := h.store } =
      .ok (match h.store.get? id name with
        | some v => v
        | none => match Builtin.ofName? name with
          | some b => .builtin b
          | none => .error (.unknownIdentifier name)) { m with store := h.store } := by
  have hlook : Machine.lookup id name { m with store := h.store } =
    .ok (h.store.get? id name) { m with store := h.store } := rfl
  rw [Eval.node, Eval.identifier, bind_of_ok hlook]
  cases h.store.get? id name with
  | some v => rfl
  | none => cases Builtin.ofName? name <;> rfl

theorem means_of_get?_some {id : ScopeId} (hg : h.store.get? id name = some v) :
    h.Means id name v := by
  intro verbosity call token m
  rw [node_ident, hg]

theorem means_of_get?_none {id : ScopeId} (hg : h.store.get? id name = none) :
    h.Means id name (match Builtin.ofName? name with
      | some b => .builtin b
      | none => .error (.unknownIdentifier name)) := by
  intro verbosity call token m
  rw [node_ident, hg]

/-- A look-up finds what the history has last in the first scope that ever had the name set, a set
reaches where no nearer scope did, and a name that no scope ever had set falls to the built-ins. -/
theorem recalled (h : History n) (e : Fin n) (name : String) : Recalled h e name where
  search r := h.nested_store.search_iff e r
  found v := h.get?_eq_some_iff e name v
  missing := h.get?_eq_none_iff e name
  changed v _ hx := get?_set_of_exposed h e name v hx
  unchanged v d other hx := by
    by_cases ho : other = name
    · subst ho
      exact get?_set_of_not_exposed h e other v (hx rfl)
    · exact Store.get?_set_ne v ho
  bound v far hx hv := means_of_get?_some h name v ((h.get?_eq_some_iff e name v).mpr ⟨far, hx, hv⟩)
  builtin b hb hu := by
    have hm := means_of_get?_none h name ((h.get?_eq_none_iff e name).mpr hu)
    subst hb
    rwa [Builtin.ofName?_name] at hm
  unknown hb hu := by
    have hm := means_of_get?_none h name ((h.get?_eq_none_iff e name).mpr hu)
    have hnone : Builtin.ofName? name = none := by
      refine List.find?_eq_none.mpr fun b _ => ?_
      simpa using hb b
    rw [hnone] at hm
    exact ⟨_, hm, rfl⟩

example (v w : Value) :
    ((((History.root .start).inside 0).set 1 "x" v).set 0 "x" w).store.get? 1 "x" = some v := rfl

/-! ## What evaluation does to scopes -/

theorem newRoot_eq (m : Machine) : Machine.newRoot { m with store := h.store } =
    .ok n { m with store := h.root.store } := by
  simp [Machine.newRoot, store]

theorem newScope_eq (m : Machine) : Machine.newScope e { m with store := h.store } =
    .ok n { m with store := (h.inside e).store } := by
  simp [Machine.newScope, store]

theorem bind_eq (m : Machine) : Machine.bind e name v { m with store := h.store } =
    .ok () { m with store := (h.set e name v).store } := rfl

end History

end Simian
