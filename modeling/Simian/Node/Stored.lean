import Simian.Node

/-!
# Programs and stored trees

Giving a stored tree its meaning loses nothing: the tree of what it means is the stored tree
again, also where it has no meaning.
-/

namespace Simian

set_option autoImplicit false

theorem Ident.map_toTree_of_listOfTrees? {ts : List Tree} {is : List Ident}
    (h : Ident.listOfTrees? ts = some is) : is.map Ident.toTree = ts := by
  induction ts generalizing is with
  | nil => simp_all [listOfTrees?]
  | cons t ts ih =>
    simp only [listOfTrees?, List.mapM_cons, Option.bind_eq_bind, Option.bind_eq_some_iff] at h ih
    obtain ⟨i, hi, rest, hrest, h⟩ := h
    obtain rfl : i :: rest = is := by simpa using h
    rw [List.map_cons, Ident.toTree_of_ofTree? hi, ih hrest]

namespace Node

theorem toTree_ofTree_and_toTrees_ofTrees :
    (∀ t : Tree, (ofTree t).toTree = t) ∧ ∀ ts : List Tree, toTrees (ofTrees ts) = ts := by
  apply ofTree.mutual_induct
  case case2 =>
    intro t name value i h ih
    simp [ofTree, h, toTree, Ident.toTree_of_ofTree? h, ih]
  case case17 =>
    intro t ps body is h ih
    simp [ofTree, h, toTree, Ident.map_toTree_of_listOfTrees? h, ih]
  all_goals
    intros
    simp_all [ofTree, ofTrees, toTree, toTrees, Ident.toTree]

/-- Nothing of a stored tree is lost. -/
@[simp] theorem toTree_ofTree (t : Tree) : (ofTree t).toTree = t :=
  toTree_ofTree_and_toTrees_ofTrees.1 t

@[simp] theorem toTrees_ofTrees (ts : List Tree) : toTrees (ofTrees ts) = ts :=
  toTree_ofTree_and_toTrees_ofTrees.2 ts

end Node

end Simian
