import Simian.Node.Render

/-!
# Trees up to tokens

Replacing the tokens of a tree leaves its node classes, children, names, operators and values as
they are, and so its text. The shape of a tree is the tree with every token blanked: trees of one
shape are the same but for their tokens.
-/

namespace Simian.Node

set_option autoImplicit false

def blank : Token := ⟨.illegal, "", ⟨0, 0⟩⟩

/-- A tree up to its tokens. -/
def shape (n : Node) : Node := n.mapTokens fun _ => blank

theorem mapTokensAll_eq_map (f : Token → Token) (ns : List Node) :
    mapTokensAll f ns = ns.map (mapTokens f) := by
  induction ns with
  | nil => rfl
  | cons n ns ih => rw [mapTokensAll, ih, List.map_cons]

section
variable (f : Token → Token) (t : Token)

theorem mapTokens_program (ss : List Node) :
    (program ss).mapTokens f = program (ss.map (mapTokens f)) :=
  congrArg program (mapTokensAll_eq_map f ss)

theorem mapTokens_letStatement (name : Ident) (value : Node) :
    (letStatement t name value).mapTokens f =
      letStatement (f t) ⟨f name.token, name.name⟩ (value.mapTokens f) := rfl

theorem mapTokens_returnStatement (value : Option Node) :
    (returnStatement t value).mapTokens f = returnStatement (f t) (value.map (mapTokens f)) := by
  cases value <;> rfl

theorem mapTokens_expressionStatement (e : Node) :
    (expressionStatement t e).mapTokens f = expressionStatement (f t) (e.mapTokens f) := rfl

theorem mapTokens_block (ss : List Node) :
    (block t ss).mapTokens f = block (f t) (ss.map (mapTokens f)) :=
  congrArg (block (f t)) (mapTokensAll_eq_map f ss)

theorem mapTokens_ident (i : Ident) : (ident i).mapTokens f = ident ⟨f i.token, i.name⟩ := rfl

theorem mapTokens_integer (v : Int) : (integer t v).mapTokens f = integer (f t) v := rfl

theorem mapTokens_string (s : String) : (string t s).mapTokens f = string (f t) s := rfl

theorem mapTokens_boolean (v : Bool) : (boolean t v).mapTokens f = boolean (f t) v := rfl

theorem mapTokens_array (es : List Node) :
    (array t es).mapTokens f = array (f t) (es.map (mapTokens f)) :=
  congrArg (array (f t)) (mapTokensAll_eq_map f es)

theorem mapTokens_prefixOp (op : String) (e : Node) :
    (prefixOp t op e).mapTokens f = prefixOp (f t) op (e.mapTokens f) := rfl

theorem mapTokens_infixOp (op : String) (l r : Node) :
    (infixOp t op l r).mapTokens f = infixOp (f t) op (l.mapTokens f) (r.mapTokens f) := rfl

theorem mapTokens_conditional (c a : Node) (b : Option Node) :
    (conditional t c a b).mapTokens f =
      conditional (f t) (c.mapTokens f) (a.mapTokens f) (b.map (mapTokens f)) := by
  cases b <;> rfl

theorem mapTokens_function (ps : List Ident) (body : Node) :
    (function t ps body).mapTokens f =
      function (f t) (ps.map fun p => ⟨f p.token, p.name⟩) (body.mapTokens f) := rfl

theorem mapTokens_call (c : Node) (args : List Node) :
    (call t c args).mapTokens f = call (f t) (c.mapTokens f) (args.map (mapTokens f)) :=
  congrArg (call (f t) (c.mapTokens f)) (mapTokensAll_eq_map f args)

theorem mapTokens_index (c i : Node) :
    (index t c i).mapTokens f = index (f t) (c.mapTokens f) (i.mapTokens f) := rfl

theorem mapTokens_datum (tree : Tree) : (datum tree).mapTokens f = datum tree := rfl

end

section
variable (t : Token)

@[simp] theorem shape_program (ss : List Node) : (program ss).shape = program (ss.map shape) :=
  mapTokens_program _ ss

@[simp] theorem shape_letStatement (name : Ident) (value : Node) :
    (letStatement t name value).shape = letStatement blank ⟨blank, name.name⟩ value.shape := rfl

@[simp] theorem shape_returnStatement_none :
    (returnStatement t none).shape = returnStatement blank none := rfl

@[simp] theorem shape_returnStatement_some (value : Node) :
    (returnStatement t (some value)).shape = returnStatement blank (some value.shape) := rfl

@[simp] theorem shape_expressionStatement (e : Node) :
    (expressionStatement t e).shape = expressionStatement blank e.shape := rfl

@[simp] theorem shape_block (ss : List Node) : (block t ss).shape = block blank (ss.map shape) :=
  mapTokens_block _ t ss

@[simp] theorem shape_ident (i : Ident) : (ident i).shape = ident ⟨blank, i.name⟩ := rfl

@[simp] theorem shape_integer (v : Int) : (integer t v).shape = integer blank v := rfl

@[simp] theorem shape_string (s : String) : (string t s).shape = string blank s := rfl

@[simp] theorem shape_boolean (v : Bool) : (boolean t v).shape = boolean blank v := rfl

@[simp] theorem shape_array (es : List Node) : (array t es).shape = array blank (es.map shape) :=
  mapTokens_array _ t es

@[simp] theorem shape_prefixOp (op : String) (e : Node) :
    (prefixOp t op e).shape = prefixOp blank op e.shape := rfl

@[simp] theorem shape_infixOp (op : String) (l r : Node) :
    (infixOp t op l r).shape = infixOp blank op l.shape r.shape := rfl

@[simp] theorem shape_conditional_none (c a : Node) :
    (conditional t c a none).shape = conditional blank c.shape a.shape none := rfl

@[simp] theorem shape_conditional_some (c a b : Node) :
    (conditional t c a (some b)).shape = conditional blank c.shape a.shape (some b.shape) := rfl

@[simp] theorem shape_function (ps : List Ident) (body : Node) : (function t ps body).shape =
    function blank (ps.map fun p => ⟨blank, p.name⟩) body.shape := rfl

@[simp] theorem shape_call (c : Node) (args : List Node) :
    (call t c args).shape = call blank c.shape (args.map shape) :=
  mapTokens_call _ t c args

@[simp] theorem shape_index (c i : Node) :
    (index t c i).shape = index blank c.shape i.shape := rfl

end

theorem shape_function_congr {t u : Token} {ps qs : List Ident} {m n : Node}
    (hp : ps.map Ident.name = qs.map Ident.name) (hb : m.shape = n.shape) :
    (function t ps m).shape = (function u qs n).shape := by
  have names (is : List Ident) : (is.map fun i => (⟨blank, i.name⟩ : Ident)) =
      (is.map Ident.name).map fun x => ⟨blank, x⟩ := by
    rw [List.map_map]
    rfl
  rw [shape_function, shape_function, names ps, names qs, hp, hb]

mutual

/-- The text of a tree does not show its tokens. -/
theorem render_mapTokens (f : Token → Token) : ∀ n : Node, (n.mapTokens f).render = n.render
  | program ss => by simp only [mapTokens, render, renderAll_mapTokens f ss]
  | letStatement _ ⟨_, _⟩ value => by simp only [mapTokens, render, render_mapTokens f value]
  | returnStatement _ none => rfl
  | returnStatement _ (some value) => by simp only [mapTokens, render, render_mapTokens f value]
  | expressionStatement _ e => by simp only [mapTokens, render, render_mapTokens f e]
  | block _ ss => by
    cases ss with
    | nil => rfl
    | cons s ss =>
      have h := renderAll_mapTokens f (s :: ss)
      simp only [mapTokensAll] at h
      simp only [mapTokens, mapTokensAll, render, List.isEmpty_cons, h]
  | ident ⟨_, _⟩ => rfl
  | integer .. => rfl
  | string .. => rfl
  | boolean .. => rfl
  | array _ es => by simp only [mapTokens, render, renderAll_mapTokens f es]
  | prefixOp _ _ e => by simp only [mapTokens, render, render_mapTokens f e]
  | infixOp _ _ l r => by
    simp only [mapTokens, render, render_mapTokens f l, render_mapTokens f r]
  | conditional _ c a none => by
    simp only [mapTokens, render, render_mapTokens f c, render_mapTokens f a]
  | conditional _ c a (some b) => by
    simp only [mapTokens, render, render_mapTokens f c, render_mapTokens f a, render_mapTokens f b]
  | function _ ps body => by
    have hps : (ps.map fun p => (⟨f p.token, p.name⟩ : Ident)).map Ident.name =
        ps.map Ident.name := by
      rw [List.map_map]
      rfl
    simp only [mapTokens, render, hps, render_mapTokens f body]
  | call _ c args => by
    simp only [mapTokens, render, render_mapTokens f c, renderAll_mapTokens f args]
  | index _ c i => by simp only [mapTokens, render, render_mapTokens f c, render_mapTokens f i]
  | datum _ => rfl

theorem renderAll_mapTokens (f : Token → Token) :
    ∀ ns : List Node, renderAll (mapTokensAll f ns) = renderAll ns
  | [] => rfl
  | n :: ns => by
    simp only [mapTokensAll, renderAll, render_mapTokens f n, renderAll_mapTokens f ns]

end

theorem render_eq_of_mapTokens {f : Token → Token} {m n : Node}
    (h : m.mapTokens f = n.mapTokens f) : m.render = n.render := by
  have hr := congrArg render h
  rwa [render_mapTokens, render_mapTokens] at hr

theorem render_eq_of_shape {m n : Node} (h : m.shape = n.shape) : m.render = n.render :=
  render_eq_of_mapTokens h

mutual

theorem mapTokens_id : ∀ n : Node, n.mapTokens id = n
  | program ss => by rw [mapTokens, mapTokensAll_id ss]
  | letStatement _ ⟨_, _⟩ e => by rw [mapTokens, mapTokens_id e, id, id]
  | returnStatement _ none => rfl
  | returnStatement _ (some e) => by rw [mapTokens, mapTokens_id e, id]
  | expressionStatement _ e => by rw [mapTokens, mapTokens_id e, id]
  | block _ ss => by rw [mapTokens, mapTokensAll_id ss, id]
  | ident ⟨_, _⟩ => rfl
  | integer .. => rfl
  | string .. => rfl
  | boolean .. => rfl
  | array _ es => by rw [mapTokens, mapTokensAll_id es, id]
  | prefixOp _ _ e => by rw [mapTokens, mapTokens_id e, id]
  | infixOp _ _ l r => by rw [mapTokens, mapTokens_id l, mapTokens_id r, id]
  | conditional _ c a none => by rw [mapTokens, mapTokens_id c, mapTokens_id a, id]
  | conditional _ c a (some b) => by
    rw [mapTokens, mapTokens_id c, mapTokens_id a, mapTokens_id b, id]
  | function _ ps body => by
    have hps : (ps.map fun p => (⟨id p.token, p.name⟩ : Ident)) = ps := List.map_id ps
    rw [mapTokens, mapTokens_id body, hps, id]
  | call _ c es => by rw [mapTokens, mapTokens_id c, mapTokensAll_id es, id]
  | index _ c i => by rw [mapTokens, mapTokens_id c, mapTokens_id i, id]
  | datum _ => rfl

theorem mapTokensAll_id : ∀ ns : List Node, mapTokensAll id ns = ns
  | [] => rfl
  | n :: ns => by rw [mapTokensAll, mapTokens_id n, mapTokensAll_id ns]

end

mutual

theorem mapTokens_mapTokens (f g : Token → Token) :
    ∀ n : Node, (n.mapTokens g).mapTokens f = n.mapTokens (f ∘ g)
  | program ss => by simp only [mapTokens, mapTokensAll_mapTokensAll f g ss]
  | letStatement _ ⟨_, _⟩ e => by
    simp only [mapTokens, mapTokens_mapTokens f g e, Function.comp_apply]
  | returnStatement _ none => rfl
  | returnStatement _ (some e) => by
    simp only [mapTokens, mapTokens_mapTokens f g e, Function.comp_apply]
  | expressionStatement _ e => by
    simp only [mapTokens, mapTokens_mapTokens f g e, Function.comp_apply]
  | block _ ss => by simp only [mapTokens, mapTokensAll_mapTokensAll f g ss, Function.comp_apply]
  | ident ⟨_, _⟩ => rfl
  | integer .. => rfl
  | string .. => rfl
  | boolean .. => rfl
  | array _ es => by simp only [mapTokens, mapTokensAll_mapTokensAll f g es, Function.comp_apply]
  | prefixOp _ _ e => by simp only [mapTokens, mapTokens_mapTokens f g e, Function.comp_apply]
  | infixOp _ _ l r => by
    simp only [mapTokens, mapTokens_mapTokens f g l, mapTokens_mapTokens f g r,
      Function.comp_apply]
  | conditional _ c a none => by
    simp only [mapTokens, mapTokens_mapTokens f g c, mapTokens_mapTokens f g a,
      Function.comp_apply]
  | conditional _ c a (some b) => by
    simp only [mapTokens, mapTokens_mapTokens f g c, mapTokens_mapTokens f g a,
      mapTokens_mapTokens f g b, Function.comp_apply]
  | function _ ps body => by
    simp only [mapTokens, mapTokens_mapTokens f g body, List.map_map, Function.comp_apply]
    rfl
  | call _ c es => by
    simp only [mapTokens, mapTokens_mapTokens f g c, mapTokensAll_mapTokensAll f g es,
      Function.comp_apply]
  | index _ c i => by
    simp only [mapTokens, mapTokens_mapTokens f g c, mapTokens_mapTokens f g i,
      Function.comp_apply]
  | datum _ => rfl

theorem mapTokensAll_mapTokensAll (f g : Token → Token) :
    ∀ ns : List Node, mapTokensAll f (mapTokensAll g ns) = mapTokensAll (f ∘ g) ns
  | [] => rfl
  | n :: ns => by
    simp only [mapTokensAll, mapTokens_mapTokens f g n, mapTokensAll_mapTokensAll f g ns]

end

/-! ## Nodes that agree up to tokens -/

/-- Two nodes that `f` makes equal by replacing tokens: the same construct with such parts. -/
inductive Paired (f : Token → Token) : Node → Node → Prop where
  | program {ss rs : List Node} : ss.map (mapTokens f) = rs.map (mapTokens f) →
      Paired f (program ss) (program rs)
  | letStatement {t u : Token} {x y : Ident} {e d : Node} : x.name = y.name →
      e.mapTokens f = d.mapTokens f → Paired f (letStatement t x e) (letStatement u y d)
  | returnStatement {t u : Token} {e d : Option Node} :
      e.map (mapTokens f) = d.map (mapTokens f) →
      Paired f (returnStatement t e) (returnStatement u d)
  | expressionStatement {t u : Token} {e d : Node} : e.mapTokens f = d.mapTokens f →
      Paired f (expressionStatement t e) (expressionStatement u d)
  | block {t u : Token} {ss rs : List Node} : ss.map (mapTokens f) = rs.map (mapTokens f) →
      Paired f (block t ss) (block u rs)
  | ident {x y : Ident} : x.name = y.name → Paired f (ident x) (ident y)
  | integer {t u : Token} (n : Int) : Paired f (integer t n) (integer u n)
  | string {t u : Token} (s : String) : Paired f (string t s) (string u s)
  | boolean {t u : Token} (b : Bool) : Paired f (boolean t b) (boolean u b)
  | array {t u : Token} {es ds : List Node} : es.map (mapTokens f) = ds.map (mapTokens f) →
      Paired f (array t es) (array u ds)
  | prefixOp {t u : Token} {op : String} {e d : Node} : e.mapTokens f = d.mapTokens f →
      Paired f (prefixOp t op e) (prefixOp u op d)
  | infixOp {t u : Token} {op : String} {l l' r r' : Node} : l.mapTokens f = l'.mapTokens f →
      r.mapTokens f = r'.mapTokens f → Paired f (infixOp t op l r) (infixOp u op l' r')
  | conditional {t u : Token} {c c' a a' : Node} {b b' : Option Node} :
      c.mapTokens f = c'.mapTokens f → a.mapTokens f = a'.mapTokens f →
      b.map (mapTokens f) = b'.map (mapTokens f) →
      Paired f (conditional t c a b) (conditional u c' a' b')
  | function {t u : Token} {ps qs : List Ident} {c d : Node} :
      ps.map Ident.name = qs.map Ident.name → c.mapTokens f = d.mapTokens f →
      Paired f (function t ps c) (function u qs d)
  | call {t u : Token} {c d : Node} {es ds : List Node} : c.mapTokens f = d.mapTokens f →
      es.map (mapTokens f) = ds.map (mapTokens f) → Paired f (call t c es) (call u d ds)
  | index {t u : Token} {c c' i i' : Node} : c.mapTokens f = c'.mapTokens f →
      i.mapTokens f = i'.mapTokens f → Paired f (index t c i) (index u c' i')
  | datum (tree : Tree) : Paired f (datum tree) (datum tree)

theorem map_name_of_mapped {f : Token → Token} {ps qs : List Ident}
    (h : (ps.map fun p => (⟨f p.token, p.name⟩ : Ident)) = qs.map fun q => ⟨f q.token, q.name⟩) :
    ps.map Ident.name = qs.map Ident.name := by
  have hnames := congrArg (List.map Ident.name) h
  rwa [List.map_map, List.map_map] at hnames

theorem paired_of_mapTokens_eq {f : Token → Token} {m n : Node}
    (h : m.mapTokens f = n.mapTokens f) : Paired f m n := by
  cases m <;> cases n <;>
    simp only [mapTokens_program, mapTokens_letStatement, mapTokens_returnStatement,
      mapTokens_expressionStatement, mapTokens_block, mapTokens_ident, mapTokens_integer,
      mapTokens_string, mapTokens_boolean, mapTokens_array, mapTokens_prefixOp, mapTokens_infixOp,
      mapTokens_conditional, mapTokens_function, mapTokens_call, mapTokens_index, mapTokens_datum,
      reduceCtorEq] at h
  case program => exact .program (program.inj h)
  case letStatement =>
    obtain ⟨-, hx, he⟩ := letStatement.inj h
    exact .letStatement (Ident.mk.inj hx).2 he
  case returnStatement => exact .returnStatement (returnStatement.inj h).2
  case expressionStatement => exact .expressionStatement (expressionStatement.inj h).2
  case block => exact .block (block.inj h).2
  case ident =>
    have hx := ident.inj h
    exact .ident (Ident.mk.inj hx).2
  case integer =>
    obtain ⟨-, rfl⟩ := integer.inj h
    exact .integer _
  case string =>
    obtain ⟨-, rfl⟩ := string.inj h
    exact .string _
  case boolean =>
    obtain ⟨-, rfl⟩ := boolean.inj h
    exact .boolean _
  case array => exact .array (array.inj h).2
  case prefixOp =>
    obtain ⟨-, rfl, he⟩ := prefixOp.inj h
    exact .prefixOp he
  case infixOp =>
    obtain ⟨-, rfl, hl, hr⟩ := infixOp.inj h
    exact .infixOp hl hr
  case conditional =>
    obtain ⟨-, hc, ha, hb⟩ := conditional.inj h
    exact .conditional hc ha hb
  case function =>
    obtain ⟨-, hps, hc⟩ := function.inj h
    exact .function (map_name_of_mapped hps) hc
  case call =>
    obtain ⟨-, hc, hes⟩ := call.inj h
    exact .call hc hes
  case index =>
    obtain ⟨-, hc, hi⟩ := index.inj h
    exact .index hc hi
  case datum => cases h; exact .datum _

end Simian.Node
