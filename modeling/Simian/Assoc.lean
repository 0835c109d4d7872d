/-!
# Association lists

Pairs of a key and a value in the order in which the keys were first set. A key is looked up with
`List.lookup`; setting a key that is there already keeps its place.
-/

namespace Simian.Assoc

set_option autoImplicit false

variable {α : Type}

def set (key : String) (value : α) : List (String × α) → List (String × α)
  | [] => [(key, value)]
  | (k, v) :: rest => if k = key then (key, value) :: rest else (k, v) :: set key value rest

@[simp] theorem lookup_set_self (key : String) (value : α) (ps : List (String × α)) :
    (set key value ps).lookup key = some value := by
  induction ps with
  | nil => simp [set]
  | cons p ps ih =>
    obtain ⟨k, v⟩ := p
    unfold set
    split
    · simp
    · next h => simp [List.lookup_cons, ih, beq_false_of_ne (Ne.symm h)]

theorem lookup_set_ne {key other : String} (value : α) (ps : List (String × α))
    (h : other ≠ key) : (set key value ps).lookup other = ps.lookup other := by
  induction ps with
  | nil => simp [set, List.lookup_cons, beq_false_of_ne h]
  | cons p ps ih =>
    obtain ⟨k, v⟩ := p
    unfold set
    split
    · next hk => subst hk; simp [List.lookup_cons, beq_false_of_ne h]
    · simp [List.lookup_cons, ih]

theorem mem_of_lookup {key : String} {value : α} {ps : List (String × α)}
    (h : ps.lookup key = some value) : (key, value) ∈ ps := by
  obtain ⟨l, r, heq, -⟩ := List.lookup_eq_some_iff.mp h
  rw [heq]
  exact List.mem_append_right l List.mem_cons_self

theorem mem_set {key : String} {value : α} {ps : List (String × α)} {p : String × α}
    (h : p ∈ set key value ps) : p = (key, value) ∨ p ∈ ps := by
  induction ps with
  | nil => exact .inl (List.mem_singleton.mp h)
  | cons q ps ih =>
    unfold set at h
    split at h
    · exact (List.mem_cons.mp h).imp_right (List.mem_cons_of_mem q)
    · rcases List.mem_cons.mp h with rfl | h
      · exact .inr List.mem_cons_self
      · exact (ih h).imp_right (List.mem_cons_of_mem q)

def keys (ps : List (String × α)) : List String := ps.map Prod.fst

theorem mem_keys_set_iff (key other : String) (value : α) (ps : List (String × α)) :
    other ∈ keys (set key value ps) ↔ other = key ∨ other ∈ keys ps := by
  induction ps with
  | nil => simp [set, keys]
  | cons p ps ih =>
    obtain ⟨k, v⟩ := p
    unfold set
    split
    · next hk => subst hk; simp [keys]
    · simp only [keys, List.map_cons, List.mem_cons] at ih ⊢
      rw [ih]
      exact or_left_comm

/-- A new key is put behind the others. -/
theorem set_of_not_mem_keys {key : String} {ps : List (String × α)} (h : key ∉ keys ps)
    (value : α) : set key value ps = ps ++ [(key, value)] := by
  induction ps with
  | nil => rfl
  | cons p ps ih =>
    obtain ⟨k, v⟩ := p
    obtain ⟨hk, hps⟩ := not_or.mp (mt List.mem_cons.mpr h)
    rw [set, if_neg (Ne.symm hk), ih hps, List.cons_append]

end Simian.Assoc
