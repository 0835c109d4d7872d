import Simian.Proofs.Grammar.Exact
import Simian.Proofs.Pieces

/-!
# Programs read back

The text of a tree is read back as the same tree, but for tokens. The text of an expression needs
no operator outside brackets, so it can stand as an operand anywhere; the text of a statement in a
row ends in a semicolon, so what follows it cannot be taken for its rest. The proof follows the
derivation of the tree: a node of a kind that is not derived may have any text.
-/

namespace Simian

open Text Grammar
set_option autoImplicit false

/-- The tokens are derived with the tree `n`, in one class of trees or another. -/
def ReadsExpr (n : Node) (ts : List Token) : Prop :=
  ∃ m, Expr .ranked Precedence.call.rank ts m ∧ m.shape = n.shape

theorem ReadsExpr.of_eq {m n : Node} {ts us : List Token}
    (hm : Expr .ranked Precedence.call.rank us m) (heq : ts = us) (hshape : m.shape = n.shape) :
    ReadsExpr n ts := ⟨m, heq ▸ hm, hshape⟩

def ReadsItems (ns : List Node) (ts : List Token) : Prop :=
  ∃ ms, Items .ranked ts ms ∧ ms.map Node.shape = ns.map Node.shape

def ReadsBlock (n : Node) (ts : List Token) : Prop :=
  ∃ m, Block .ranked ts m ∧ m.shape = n.shape

def ReadsStatements (ns : List Node) (ts : List Token) : Prop :=
  ∃ ms, Statements .ranked ts ms ∧ ms.map Node.shape = ns.map Node.shape

def ReadsClosed (n : Node) (ts : List Token) : Prop :=
  ∃ us c m, ts = us ++ [c] ∧ c.kind = .semicolon ∧ Statement .ranked us m ∧ m.shape = n.shape

/-- The text of a statement, alone and before others. -/
structure Rereads (n : Node) : Prop where
  alone : Yields n.render Apart (ReadsStatements [n])
  closed : Yields (withSemicolon n.render) Free (ReadsClosed n)

/-! ## The ends of texts -/

theorem endsInSemicolon_append (s : String) {t : String} (h : t.toList ≠ []) :
    endsInSemicolon (s ++ t) = endsInSemicolon t := by
  rw [endsInSemicolon, endsInSemicolon, String.toList_append, List.getLast?_append,
    List.getLast?_eq_some_getLast h]
  rfl

theorem endsInSemicolon_eq_false {s : String} {p : Char → Bool} (h : ∀ c ∈ s.toList, p c = true)
    (hp : p ';' = false) : endsInSemicolon s = false := by
  rw [endsInSemicolon, beq_eq_false_iff_ne]
  intro he
  have := h _ (List.mem_of_getLast? he)
  rw [hp] at this
  cases this

theorem NoEquals.of_forall {cs : List Char} {p : Char → Bool} (hne : cs ≠ [])
    (h : ∀ c ∈ cs, p c = true) (hp : p '=' = false) (rest : List Char) : NoEquals (cs ++ rest) := by
  obtain ⟨c, cs, rfl⟩ := List.exists_cons_of_ne_nil hne
  refine .of_cons ?_
  rintro rfl
  exact absurd (h _ List.mem_cons_self) (by simp [hp])

theorem NoEquals.of_text {s : String} {x : Char} {xs : List Char} (h : s.toList = x :: xs)
    (hx : x ≠ '=') (rest : List Char) : NoEquals (s.toList ++ rest) := by
  rw [h]
  exact .of_cons hx

/-- The tokens are spelled as those of a source are. -/
def AllSpelled (ts : List Token) : Prop := ∀ t ∈ ts, Spelled t.kind t.literal.toList

section
variable {b : Binding} {k : Nat} {ts us : List Token} {n : Node}

theorem AllSpelled.left (h : AllSpelled (ts ++ us)) : AllSpelled ts :=
  fun t ht => h t (List.mem_append_left us ht)

theorem AllSpelled.right (h : AllSpelled (ts ++ us)) : AllSpelled us :=
  fun t ht => h t (List.mem_append_right ts ht)

theorem AllSpelled.tail {t : Token} (h : AllSpelled (t :: ts)) : AllSpelled ts :=
  fun u hu => h u (List.mem_cons_of_mem t hu)

theorem AllSpelled.head {t : Token} (h : AllSpelled (t :: ts)) : Spelled t.kind t.literal.toList :=
  h t List.mem_cons_self

theorem Grammar.Block.render_ne_nil (h : Block b ts n) : n.render.toList ≠ [] := by
  cases h
  rw [Node.render]
  split <;> simp

theorem Grammar.Block.not_endsInSemicolon (h : Block b ts n) :
    endsInSemicolon n.render = false := by
  cases h with
  | @intro l r ts ns hl hs hr =>
    rw [Node.render]
    split
    · decide
    · rw [endsInSemicolon_append _ (by decide)]
      decide

theorem Grammar.Expr.not_endsInSemicolon : ∀ {k : Nat} {ts : List Token} {n : Node},
    Expr b k ts n → AllSpelled ts → endsInSemicolon n.render = false
  | _, _, _, .ident hk, hs =>
    endsInSemicolon_eq_false (hs.head.ident hk).2.1 (by decide)
  | _, _, _, .integer _ _, _ =>
    endsInSemicolon_eq_false (fun _ => isDigit_of_mem_toString) (by decide)
  | _, _, _, .trueWord _, _ | _, _, _, .falseWord _, _ => by
    rw [Node.render]
    decide
  | _, _, _, .group _ he _, hs => he.not_endsInSemicolon hs.tail.left
  | _, _, _, .string _, _ | _, _, _, .array _ _ _, _ | _, _, _, .prefixOp _ _ _, _
  | _, _, _, .infixOp _ _ _ _, _ | _, _, _, .call _ _ _ _, _ | _, _, _, .index _ _ _ _, _ => by
    rw [Node.render, endsInSemicolon_append _ (by decide)]
    decide
  | _, _, _, .conditional _ _ _ _ hb, _ | _, _, _, .alternative _ _ _ _ _ _ hb, _
  | _, _, _, .function _ _ _ _ hb, _ => by
    rw [Node.render, endsInSemicolon_append _ hb.render_ne_nil, hb.not_endsInSemicolon]

theorem Grammar.Expr.noEquals : ∀ {k : Nat} {ts : List Token} {n : Node},
    Expr b k ts n → AllSpelled ts → ∀ rest, NoEquals (n.render.toList ++ rest)
  | _, _, _, .ident hk, hs, rest => by
    obtain ⟨hne, hletters, -⟩ := hs.head.ident hk
    exact .of_forall hne hletters (by decide) rest
  | _, _, _, .integer _ _, _, rest =>
    .of_forall (toList_toString_ne_nil _) (fun _ => isDigit_of_mem_toString) (by decide) rest
  | _, _, _, .trueWord _, _, rest | _, _, _, .falseWord _, _, rest => by
    rw [Node.render]
    exact .of_text rfl (by decide) rest
  | _, _, _, .string _, _, rest | _, _, _, .array _ _ _, _, rest
  | _, _, _, .prefixOp _ _ _, _, rest | _, _, _, .infixOp _ _ _ _, _, rest
  | _, _, _, .index _ _ _ _, _, rest | _, _, _, .conditional _ _ _ _ _, _, rest
  | _, _, _, .alternative _ _ _ _ _ _ _, _, rest | _, _, _, .function _ _ _ _ _, _, rest => by
    rw [Node.render]
    simp only [String.toList_append, List.append_assoc]
    exact .of_text rfl (by decide) _
  | _, _, _, .group _ he _, hs, rest => he.noEquals hs.tail.left rest
  | _, _, _, .call hf _ _ _, hs, rest => by
    rw [Node.render]
    simp only [String.toList_append, List.append_assoc]
    exact hf.noEquals hs.left _

end

/-! ## Lists -/

/-- An item, the comma behind it, and the items behind that. -/
theorem Yields.item {text text' : String} {texts : List String} {P Q : List Token → Prop}
    (h : Yields text Apart P) (h' : Yields (commaSeparated (text' :: texts)) Apart Q) :
    Yields (commaSeparated (text :: text' :: texts)) Apart fun ts =>
      ∃ us c vs, ts = us ++ c :: vs ∧ c.kind = .comma ∧ P us ∧ Q vs := by
  have hcomma : Yields ", " Free (One .comma ",") :=
    Yields.comma.anywhere.spaceAfter
  rw [commaSeparated, String.intercalate_cons_cons]
  refine ((h.append hcomma fun _ _ => .of_cons (by decide)).then h').imp ?_
  rintro _ ⟨_, vs, rfl, ⟨us, _, rfl, hp, c, rfl, hc, -⟩, hq⟩
  exact ⟨us, c, vs, by rw [List.append_assoc]; rfl, hc, hp, hq⟩

theorem Grammar.Names.yields {ts : List Token} {is : List Ident} (h : Names ts is)
    (hs : AllSpelled ts) : Yields (commaSeparated (is.map Ident.name)) Apart fun us =>
      ∃ js, Names us js ∧ js.map Ident.name = is.map Ident.name := by
  induction h with
  | nil =>
    apply (Yields.nil _).imp
    rintro _ rfl
    exact ⟨[], .nil, rfl⟩
  | one hk =>
    obtain ⟨hne, hletters, hword⟩ := hs.head.ident hk
    rw [String.ofList_toList] at hword
    apply (Yields.word hne hletters).imp
    rintro _ ⟨u, rfl, huk, hlit⟩
    exact ⟨_, .one (huk.trans hword), congrArg (fun s => [s]) hlit⟩
  | cons hk hc hn hne ih =>
    obtain ⟨hne', hletters, hword⟩ := hs.head.ident hk
    rw [String.ofList_toList] at hword
    obtain ⟨i, is, rfl⟩ := List.exists_cons_of_ne_nil hne
    apply ((Yields.word hne' hletters).item (ih hs.tail.tail)).imp
    rintro _ ⟨_, c, vs, rfl, hck, ⟨u, rfl, huk, hlit⟩, js, hjs, hnames⟩
    refine ⟨⟨u, u.literal⟩ :: js, .cons (huk.trans hword) hck hjs ?_, ?_⟩
    · rintro rfl
      cases hnames
    · rw [List.map_cons, hnames, hlit]
      rfl

theorem yields_joinStatements {ns : List Node} (h : ∀ n ∈ ns, Rereads n) :
    Yields (joinStatements (Node.renderAll ns)) Apart (ReadsStatements ns) := by
  induction ns with
  | nil =>
    apply (Yields.nil _).imp
    rintro _ rfl
    exact ⟨[], .nil, rfl⟩
  | cons n ns ih =>
    cases ns with
    | nil => exact (h n List.mem_cons_self).alone
    | cons m ms =>
      have hn := (h n List.mem_cons_self).closed
      have hrest := ih fun k hk => h k (List.mem_cons_of_mem n hk)
      apply (hn.anywhere.spaceAfter.then hrest).imp
      rintro _ ⟨_, vs, rfl, ⟨us, c, k, rfl, hc, hk, hshape⟩, ks, hks, hshapes⟩
      refine ⟨k :: ks, ?_, ?_⟩
      · rw [List.append_assoc]
        refine .cons hk (fun a ha hne => ?_) (.semicolon hc hks)
        cases ha
        exact absurd hc hne
      · rw [List.map_cons, hshape]
        exact congrArg _ hshapes

/-! ## Statements -/

theorem Rereads.of_closed {n : Node} {P : List Token → Prop} (h : Yields n.render Free P)
    (hend : endsInSemicolon n.render = true) (hP : ∀ ts, P ts → ReadsClosed n ts) : Rereads n := by
  refine ⟨h.anywhere.imp fun ts hp => ?_, ?_⟩
  · obtain ⟨us, c, m, rfl, hc, hm, hshape⟩ := hP ts hp
    refine ⟨[m], .cons hm (fun a ha hne => ?_) (.semicolon hc .nil), by rw [List.map, hshape]; rfl⟩
    cases ha
    exact absurd hc hne
  · rw [withSemicolon, if_pos hend]
    exact h.imp hP

theorem ReadsExpr.statement {t : Token} {e : Node} {ts : List Token} (h : ReadsExpr e ts) :
    ∃ m, Statement .ranked ts m ∧ m.shape = (Node.expressionStatement t e).shape := by
  obtain ⟨m, hm, hshape⟩ := h
  obtain ⟨a, as, rfl⟩ := List.exists_cons_of_ne_nil hm.ne_nil
  exact ⟨_, .expression (hm.mono (by decide)), by simp [hshape]⟩

/-- A statement that is an expression has no semicolon of its own. -/
theorem Rereads.of_expression {t : Token} {e : Node} (h : Yields e.render Apart (ReadsExpr e))
    (hend : endsInSemicolon e.render = false) : Rereads (.expressionStatement t e) := by
  constructor
  · apply h.imp
    intro ts hp
    obtain ⟨m, hm, hshape⟩ := hp.statement (t := t)
    refine ⟨[m], ?_, by rw [List.map, hshape]; rfl⟩
    rw [← List.append_nil ts]
    exact .cons hm (fun a ha => nomatch ha) .nil
  · rw [Node.render, withSemicolon, hend]
    apply (h.closing Yields.semicolon rfl (by decide)).imp
    rintro _ ⟨us, _, rfl, hp, c, rfl, hc, -⟩
    obtain ⟨m, hm, hshape⟩ := hp.statement (t := t)
    exact ⟨us, c, m, rfl, hc, hm, hshape⟩

/-! ## Expressions from their parts -/

theorem Grammar.IsInfix.rank_lt_call {k : Kind} (h : IsInfix k) :
    (Precedence.ofKind k).rank < Precedence.call.rank :=
  Nat.lt_trans h.rank_lt_unary (by decide)

/-- The text of a condition and the block behind it. -/
theorem yields_conditional {text text' : String} {P Q : List Token → Prop}
    (h : Yields text Apart P) (h' : Yields text' Free Q) :
    Yields ("if (" ++ text ++ ") " ++ text') Free fun ts => ∃ w l us r vs,
      ts = w :: l :: us ++ r :: vs ∧ w.kind = .ifWord ∧ l.kind = .lparen ∧ r.kind = .rparen ∧
        P us ∧ Q vs := by
  have hif : Yields "if " Free (One .ifWord "if") :=
    (Yields.keyword "if" rfl rfl).spaceAfter
  have hopen : Yields "if (" Free _ := hif.then Yields.lparen
  have hclose : Yields ") " Free (One .rparen ")") :=
    Yields.rparen.anywhere.spaceAfter
  apply (((hopen.then h).closing hclose rfl (by decide)).then h').imp
  rintro _ ⟨_, vs, rfl, ⟨_, _, rfl, ⟨_, us, rfl, ⟨_, _, rfl, ⟨w, rfl, hw, -⟩, l, rfl, hl, -⟩, hp⟩,
    r, rfl, hr, -⟩, hq⟩
  exact ⟨w, l, us, r, vs, by simp, hw, hl, hr, hp, hq⟩

theorem Spelled.yields_operator {t : Token} (h : Spelled t.kind t.literal.toList)
    (hk : t.kind ∈ operators) : Yields t.literal NoEquals (One t.kind t.literal) := by
  have hlit : t.literal = t.kind.text := String.toList_inj.mp (h.operator hk)
  rw [hlit]
  exact .operator hk

section
variable {t : Token} {c e l r : Node} {ns : List Node} {is : List Ident}

theorem yields_prefixOp (ht : IsPrefix t.kind) (hs : Spelled t.kind t.literal.toList)
    (he : Yields e.render Apart (ReadsExpr e)) (hne : ∀ rest, NoEquals (e.render.toList ++ rest)) :
    Yields (Node.prefixOp t t.literal e).render Apart (ReadsExpr (.prefixOp t t.literal e)) := by
  have hop := hs.yields_operator (by rcases ht with h | h <;> rw [h] <;> decide)
  have hbody := (Yields.lparen.then hop).append he fun rest _ => hne rest
  rw [Node.render]
  apply (hbody.closing Yields.rparen rfl (by decide)).anywhere.imp
  rintro _ ⟨_, _, rfl, ⟨_, us, rfl, ⟨_, _, rfl, ⟨l, rfl, hl, -⟩, o, rfl, ho, hol⟩, m, hm, hshape⟩,
    r, rfl, hr, -⟩
  rw [← ho] at ht
  refine ⟨_, .group hl (.prefixOp ht (fun _ => by decide) (hm.mono (by decide))) hr, ?_⟩
  simp [hshape, hol]

theorem yields_infixOp (ht : IsInfix t.kind) (hs : Spelled t.kind t.literal.toList)
    (hl : Yields l.render Apart (ReadsExpr l)) (hr : Yields r.render Apart (ReadsExpr r)) :
    Yields (Node.infixOp t t.literal l r).render Apart (ReadsExpr (.infixOp t t.literal l r)) := by
  have hop := hs.yields_operator (List.mem_cons_of_mem _ ht)
  have hleft := (Yields.lparen.then hl).spaceAfter
  have hmid := ((hleft.then hop).weaken fun _ h => Apart.noEquals h).spaceAfter
  rw [Node.render]
  apply ((hmid.then hr).closing Yields.rparen rfl (by decide)).anywhere.imp
  rintro _ ⟨_, _, rfl, ⟨_, rs, rfl, ⟨_, _, rfl, ⟨_, ls, rfl, ⟨p, rfl, hp, -⟩, l, hl, hsl⟩,
    o, rfl, ho, hol⟩, r, hr, hsr⟩, q, rfl, hq, -⟩
  rw [← ho] at ht
  have hrank := ht.rank_lt_call
  have hgroup := Expr.group (k := Precedence.call.rank) hp
    (.infixOp ht (fun _ => lowest_le_rank _) (hl.mono (Nat.le_of_lt hrank)) (hr.mono hrank)) hq
  exact .of_eq hgroup (by simp) (by simp [hsl, hsr, hol])

theorem yields_function (hp : Yields (commaSeparated (is.map Ident.name)) Apart fun us =>
      ∃ js, Names us js ∧ js.map Ident.name = is.map Ident.name)
    (hb : Yields e.render Free (ReadsBlock e)) :
    Yields (Node.function t is e).render Apart (ReadsExpr (.function t is e)) := by
  have hfn : Yields "fn" Apart (One .fnWord "fn") := Yields.keyword "fn" rfl rfl
  have hopen : Yields "fn(" Free _ := hfn.closing Yields.lparen rfl (by decide)
  have hclose : Yields ") " Free (One .rparen ")") := Yields.rparen.anywhere.spaceAfter
  have hnames := (hopen.then hp).closing hclose rfl (by decide)
  rw [Node.render]
  apply (hnames.then hb).anywhere.imp
  rintro _ ⟨_, bs, rfl, ⟨_, _, rfl, ⟨_, ps, rfl, ⟨_, _, rfl, ⟨w, rfl, hw, -⟩, l, rfl, hl, -⟩,
    js, hjs, hnames⟩, r, rfl, hr, -⟩, b, hb, hsb⟩
  have hfun := Expr.function (k := Precedence.call.rank) hw hl hjs hr hb
  exact .of_eq hfun (by simp) (Node.shape_function_congr hnames hsb)

theorem yields_call (hc : Yields c.render Apart (ReadsExpr c))
    (hi : Yields (commaSeparated (Node.renderAll ns)) Apart (ReadsItems ns)) :
    Yields (Node.call t c ns).render Apart (ReadsExpr (.call t c ns)) := by
  have hopen := hc.closing Yields.lparen rfl (by decide)
  rw [Node.render]
  apply ((hopen.then hi).closing Yields.rparen rfl (by decide)).anywhere.imp
  rintro _ ⟨_, _, rfl, ⟨_, us, rfl, ⟨fs, _, rfl, ⟨f, hf, hsf⟩, l, rfl, hl, -⟩, ms, hms, hsm⟩,
    r, rfl, hr, -⟩
  have hcall := Expr.call (k := Precedence.call.rank) hf hl hms hr
  exact .of_eq hcall (by simp) (by simp [hsf, hsm])

theorem yields_index (hc : Yields c.render Apart (ReadsExpr c))
    (he : Yields e.render Apart (ReadsExpr e)) :
    Yields (Node.index t c e).render Apart (ReadsExpr (.index t c e)) := by
  have hopen := (Yields.lparen.then hc).closing Yields.lbracket rfl (by decide)
  have hclose : Yields "])" Free _ := Yields.rbracket.then Yields.rparen
  rw [Node.render]
  apply ((hopen.then he).closing hclose rfl (by decide)).anywhere.imp
  rintro _ ⟨_, _, rfl, ⟨_, us, rfl, ⟨_, _, rfl, ⟨_, cs, rfl, ⟨p, rfl, hp, -⟩, c, hc, hsc⟩,
    l, rfl, hl, -⟩, i, hi, hsi⟩, _, _, rfl, ⟨r, rfl, hr, -⟩, q, rfl, hq, -⟩
  have hindex := Expr.group (k := Precedence.call.rank) hp
    (.index hc hl (hi.mono (by decide)) hr) hq
  exact .of_eq hindex (by simp) (by simp [hsc, hsi])

end

/-! ## Trees from their derivations -/

mutual

theorem Grammar.Expr.yields {b : Binding} : ∀ {k : Nat} {ts : List Token} {n : Node},
    Expr b k ts n → AllSpelled ts → Yields n.render Apart (ReadsExpr n)
  | _, _, _, .ident hk, hs => by
    obtain ⟨hne, hletters, hword⟩ := hs.head.ident hk
    rw [String.ofList_toList] at hword
    rw [Node.render]
    apply (Yields.word hne hletters).imp
    rintro _ ⟨u, rfl, huk, hlit⟩
    exact ⟨_, .ident (huk.trans hword), by simp [hlit]⟩
  | _, _, _, .integer hk hv, hs => by
    rw [Node.render]
    apply (Yields.number hv).imp
    rintro _ ⟨u, rfl, huk, hval⟩
    refine ⟨_, .integer huk ?_, ?_⟩
    · rw [hval]
      exact hv
    · rw [Node.shape_integer, Node.shape_integer, hval]
      rfl
  | _, _, _, .string hk, hs => by
    rw [Node.render]
    apply (Yields.quoted (hs.head.string hk)).anywhere.imp
    rintro _ ⟨u, rfl, huk, hlit⟩
    exact ⟨_, .string huk, by simp [hlit]⟩
  | _, _, _, .trueWord hk, _ => by
    rw [Node.render]
    apply (Yields.keyword "true" rfl rfl).imp
    rintro _ ⟨u, rfl, huk, -⟩
    exact ⟨_, .trueWord huk, rfl⟩
  | _, _, _, .falseWord hk, _ => by
    rw [Node.render]
    apply (Yields.keyword "false" rfl rfl).imp
    rintro _ ⟨u, rfl, huk, -⟩
    exact ⟨_, .falseWord huk, rfl⟩
  | _, _, _, .group _ he _, hs => he.yields hs.tail.left
  | _, _, _, .array _ hi _, hs => by
    rw [Node.render]
    have hitems := hi.yields hs.tail.left
    apply ((Yields.lbracket.then hitems).closing Yields.rbracket rfl (by decide)).anywhere.imp
    rintro _ ⟨_, _, rfl, ⟨_, us, rfl, ⟨l, rfl, hl, -⟩, ms, hms, hshape⟩, r, rfl, hr, -⟩
    exact ⟨_, .array hl hms hr, by simp [hshape]⟩
  | _, _, _, .prefixOp ht _ he, hs =>
    yields_prefixOp ht hs.head (he.yields hs.tail) (he.noEquals hs.tail)
  | _, _, _, .infixOp ht _ hl hr, hs =>
    yields_infixOp ht hs.right.head (hl.yields hs.left) (hr.yields hs.right.tail)
  | _, _, _, .conditional hw hlk hc hrk hb, hs => by
    have hall := yields_conditional (hc.yields hs.left.tail.tail) (hb.yields hs.right.tail)
    rw [Node.render]
    apply hall.anywhere.imp
    rintro _ ⟨w, l, cs, r, bs, rfl, hw, hl, hr, ⟨c, hc, hsc⟩, b, hb, hsb⟩
    exact ⟨_, .conditional hw hl (hc.mono (by decide)) hr hb, by simp [hsc, hsb]⟩
  | _, _, _, .alternative _ _ hc _ hb _ hd, hs => by
    have hall := yields_conditional (hc.yields hs.left.left.tail.tail)
      (hb.yields hs.left.right.tail)
    have helse : Yields " else " Free (One .elseWord "else") :=
      (Yields.keyword "else" rfl rfl).spaceAfter.spaceBefore
    rw [Node.render]
    apply ((hall.then helse).then (hd.yields hs.right.tail)).anywhere.imp
    rintro _ ⟨_, ds, rfl, ⟨_, _, rfl, ⟨w, l, cs, r, bs, rfl, hw, hl, hr, ⟨c, hc, hsc⟩, b, hb, hsb⟩,
      e, rfl, he, -⟩, d, hd, hsd⟩
    have hif := Expr.alternative (k := Precedence.call.rank) hw hl (hc.mono (by decide)) hr hb he hd
    exact .of_eq hif (by simp) (by simp [hsc, hsb, hsd])
  | _, _, _, .function _ _ hp _ hb, hs =>
    yields_function (hp.yields hs.left.tail.tail) (hb.yields hs.right.tail)
  | _, _, _, .call hf _ hi _, hs =>
    yields_call (hf.yields hs.left) (hi.yields hs.right.tail.left)
  | _, _, _, .index hc _ he _, hs =>
    yields_index (hc.yields hs.left) (he.yields hs.right.tail.left)

theorem Grammar.Items.yields {b : Binding} : ∀ {ts : List Token} {ns : List Node},
    Items b ts ns → AllSpelled ts →
      Yields (commaSeparated (Node.renderAll ns)) Apart (ReadsItems ns)
  | _, _, .nil, _ => by
    apply (Yields.nil _).imp
    rintro _ rfl
    exact ⟨[], .nil, rfl⟩
  | _, _, .one he, hs => by
    apply (he.yields hs).imp
    rintro _ ⟨m, hm, hshape⟩
    exact ⟨[m], .one (hm.mono (by decide)), by simp [hshape]⟩
  | _, _, .cons he _ hi hne, hs => by
    have hrest := hi.yields hs.right.tail
    obtain ⟨m, ms, rfl⟩ := List.exists_cons_of_ne_nil hne
    apply ((he.yields hs.left).item hrest).imp
    rintro _ ⟨us, c, vs, rfl, hc, ⟨n, hn, hshape⟩, ks, hks, hshapes⟩
    refine ⟨n :: ks, .cons (hn.mono (by decide)) hc hks ?_, ?_⟩
    · rintro rfl
      cases hshapes
    · rw [List.map_cons, hshape, hshapes]
      rfl

theorem Grammar.Block.yields {b : Binding} : ∀ {ts : List Token} {n : Node},
    Block b ts n → AllSpelled ts → Yields n.render Free (ReadsBlock n)
  | _, _, .intro _ hst _, hs => by
    have hbody := yields_joinStatements (hst.rereads hs.tail.left)
    have hopen : Yields "\x7b " Free (One .lbrace "\x7b") := Yields.lbrace.anywhere.spaceAfter
    have hclose : Yields " \x7d" Free (One .rbrace "\x7d") := Yields.rbrace.spaceBefore
    rw [Node.render]
    split
    · next hnil =>
      obtain rfl := List.isEmpty_iff.mp hnil
      have hempty : Yields "\x7b \x7d" Free _ := hopen.then Yields.rbrace
      apply hempty.imp
      rintro _ ⟨_, _, rfl, ⟨l, rfl, hl, -⟩, r, rfl, hr, -⟩
      exact ⟨_, .intro hl .nil hr, by simp⟩
    · apply ((hopen.then hbody).closing hclose rfl (by decide)).imp
      rintro _ ⟨_, _, rfl, ⟨_, us, rfl, ⟨l, rfl, hl, -⟩, ms, hms, hshape⟩, r, rfl, hr, -⟩
      exact ⟨_, .intro hl hms hr, by simp [hshape]⟩

theorem Grammar.Statements.rereads {b : Binding} : ∀ {ts : List Token} {ns : List Node},
    Statements b ts ns → AllSpelled ts → ∀ n ∈ ns, Rereads n
  | _, _, .nil, _ => fun _ hn => absurd hn List.not_mem_nil
  | _, _, .semicolon _ hst, hs => hst.rereads hs.tail
  | _, _, .cons hn _ hst, hs => by
    have hfirst := hn.rereads hs.left
    have hrest := hst.rereads hs.right
    exact List.forall_mem_cons.mpr ⟨hfirst, hrest⟩

theorem Grammar.Statement.rereads {b : Binding} : ∀ {ts : List Token} {n : Node},
    Statement b ts n → AllSpelled ts → Rereads n
  | _, _, .letStatement _ hx _ he, hs => by
    obtain ⟨hne, hletters, hword⟩ := hs.tail.head.ident hx
    rw [String.ofList_toList] at hword
    have hlet : Yields "let " Free (One .letWord "let") :=
      (Yields.keyword "let" rfl rfl).spaceAfter
    have heq : Yields " = " Free (One .assign "=") :=
      (Yields.assign.weaken fun _ h => Apart.noEquals h).spaceAfter.spaceBefore
    have hname := (hlet.then (Yields.word hne hletters)).closing heq rfl (by decide)
    have hall := (hname.then (he.yields hs.tail.tail.tail)).closing Yields.semicolon rfl (by decide)
    refine .of_closed hall ?_ ?_
    · rw [Node.render, endsInSemicolon_append _ (by decide)]
      decide
    · rintro _ ⟨_, _, rfl, ⟨_, vs, rfl, ⟨_, _, rfl, ⟨_, _, rfl, ⟨w, rfl, hw, -⟩, x, rfl, hx, hlit⟩,
        a, rfl, ha, -⟩, m, hm, hshape⟩, c, rfl, hc, -⟩
      refine ⟨_, c, _, rfl, hc, .letStatement hw (hx.trans hword) ha (hm.mono (by decide)), ?_⟩
      simp [hshape, hlit]
  | _, _, .returnValue _ he, hs => by
    have hreturn : Yields "return " Free (One .returnWord "return") :=
      (Yields.keyword "return" rfl rfl).spaceAfter
    have hall := (hreturn.then (he.yields hs.tail)).closing Yields.semicolon rfl (by decide)
    refine .of_closed hall ?_ ?_
    · rw [Node.render, endsInSemicolon_append _ (by decide)]
      decide
    · rintro _ ⟨_, _, rfl, ⟨_, vs, rfl, ⟨w, rfl, hw, -⟩, m, hm, hshape⟩, c, rfl, hc, -⟩
      exact ⟨_, c, _, rfl, hc, .returnValue hw (hm.mono (by decide)), by simp [hshape]⟩
  | _, _, .returnBare _, _ => by
    have hreturn : Yields "return;" Free _ :=
      (Yields.keyword "return" rfl rfl).closing Yields.semicolon rfl (by decide)
    refine .of_closed hreturn (by rw [Node.render]; decide) ?_
    rintro _ ⟨_, _, rfl, ⟨w, rfl, hw, -⟩, c, rfl, hc, -⟩
    exact ⟨_, c, _, rfl, hc, .returnBare hw, rfl⟩
  | _, _, .expression he, hs => .of_expression (he.yields hs) (he.not_endsInSemicolon hs)

end

/-! ## Programs -/

/-- Statements as they are parsed, printed and parsed again, are the same but for tokens. -/
theorem parse_joinStatements {ns : List Node} (h : ∀ n ∈ ns, Rereads n) :
    ∃ ms, parse (joinStatements (Node.renderAll ns)) = .ok ⟨ms, []⟩ ∧
      ms.map Node.shape = ns.map Node.shape := by
  have htext := yields_joinStatements h
  obtain ⟨ts, d, hts, hd, hread, ms, hms, hshape⟩ := htext
    (Cursor.start (joinStatements (Node.renderAll ns))) [] (by simp [Cursor.start, Cursor.ofList])
    (fun c hc => nomatch hc)
  have hnil : d.stream.tokens = [] := by
    have hblank : d.rest.dropWhile isBlank = [] := by rw [hd]; rfl
    rw [Cursor.stream_of_eof (Cursor.next_kind_eof_iff.mpr (Cursor.skipBlanks_rest d ▸ hblank))]
  rw [hnil, List.append_nil] at hts
  have htokens : (tokenize (joinStatements (Node.renderAll ns))).tokens = ts := hts
  refine ⟨ms, (parse_eq_ok_iff ⟨(tokenize_spelled _).1, ?_⟩).mpr (htokens ▸ hms), hshape⟩
  change ∀ t ∈ (tokenize _).tokens, Readable t
  rw [htokens]
  exact hread

/-- The text of what survives of a source parses without errors, to a program that is the same
but for its tokens and has the same text. -/
theorem parse_render {source : String} {parsed : Parsed} (h : parse source = .ok parsed) :
    ∃ again, parse parsed.program.render = .ok again ∧ again.errors = [] ∧
      again.program.shape = parsed.program.shape ∧
      again.program.render = parsed.program.render := by
  obtain ⟨heof, hall⟩ := tokenize_spelled source
  rw [parse, Parser.parseStream_eq_ok_iff heof] at h
  obtain ⟨ss, t, hx, rfl⟩ := h
  obtain ⟨ns, hns, hst⟩ := survivors_sound (proper_source source) hx
  have hreads : ∀ n ∈ ns, Rereads n := by
    intro n hn
    obtain ⟨us, hus, hn⟩ := hst n hn
    exact hn.rereads fun t ht => hall t (hus ht)
  obtain ⟨ms, hms, hshape⟩ := parse_joinStatements hreads
  have hss : ss.toList = ns := hns
  have hsame : (Node.program ms).shape = (Node.program ns).shape := by
    rw [Node.shape_program, Node.shape_program, hshape]
  rw [hss]
  exact ⟨⟨ms, []⟩, hms, rfl, hsame, Node.render_eq_of_shape hsame⟩

/-- A source with a syntax error, of which one statement survives. -/
theorem parse_render_recovered : ∃ parsed again,
    parse "let x 5; if (-a) \x7b b \x7d (c)" = .ok parsed ∧
    parsed.errors.length = 1 ∧ parsed.statements.length = 1 ∧
    parse parsed.program.render = .ok again ∧ again.errors = [] ∧
    again.program.shape = parsed.program.shape := by
  obtain ⟨parsed, h, herr, hone⟩ : ∃ parsed,
      parse "let x 5; if (-a) \x7b b \x7d (c)" = .ok parsed ∧
      parsed.errors.length = 1 ∧ parsed.statements.length = 1 := ⟨_, rfl, rfl, rfl⟩
  obtain ⟨again, hagain, hnil, hshape, -⟩ := parse_render h
  exact ⟨parsed, again, h, herr, hone, hagain, hnil, hshape⟩

end Simian
