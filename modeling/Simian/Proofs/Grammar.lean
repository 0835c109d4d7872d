import Simian.Int64
import Simian.Parser.Basic

/-!
# The grammar of the language

Which token lists are expressions, blocks, statements and programs, and of which tree. Nothing
here looks ahead or recovers: a derivation only says how a text is put together. Parentheses leave
no node. Semicolons may stand anywhere between statements. Two statements may stand side by side
without one unless the second could continue the first.

An expression has a least rank, below which no operator outside its parentheses may lie. Under
`Binding.ranked` this makes operators group as they bind, to the left among equals. Under
`Binding.free` ranks do not count, and an expression may group its operators in any way.
-/

namespace Simian.Grammar

open Text
set_option autoImplicit false

/-- Whether operators group as they bind. -/
inductive Binding where
  | ranked | free
  deriving DecidableEq, Repr

/-- An operator of precedence `p` may stand where `least` is the least rank. -/
def Admits (b : Binding) (least : Nat) (p : Precedence) : Prop := b = .ranked → least ≤ p.rank

def IsPrefix (k : Kind) : Prop := k = .bang ∨ k = .minus

def IsInfix (k : Kind) : Prop :=
  k ∈ [Kind.eq, .notEq, .lt, .gt, .plus, .minus, .asterisk, .slash]

instance (k : Kind) : Decidable (IsPrefix k) := inferInstanceAs (Decidable (_ ∨ _))

instance (k : Kind) : Decidable (IsInfix k) := inferInstanceAs (Decidable (_ ∈ _))

def numeralValue (t : Token) : Int := (digitsValue t.literal.toList : Nat)

inductive Names : List Token → List Ident → Prop where
  | nil : Names [] []
  | one {t : Token} : t.kind = .ident → Names [t] [⟨t, t.literal⟩]
  | cons {t c : Token} {ts : List Token} {is : List Ident} : t.kind = .ident → c.kind = .comma →
      Names ts is → is ≠ [] → Names (t :: c :: ts) (⟨t, t.literal⟩ :: is)

/-- What may follow the statement `n`: the end, a semicolon, or a statement that could not be
read as the rest of `n`. -/
def Separated (n : Node) (following : List Token) : Prop :=
  ∀ t ∈ following.head?, t.kind ≠ .semicolon →
    t.kind ∉ [Kind.minus, .lparen, .lbracket] ∧ ∀ w, n ≠ .returnStatement w none

mutual

/-- Expressions whose outermost operators have the rank `k` at least. -/
inductive Expr (b : Binding) : Nat → List Token → Node → Prop where
  | ident {k : Nat} {t : Token} : t.kind = .ident → Expr b k [t] (.ident ⟨t, t.literal⟩)
  | integer {k : Nat} {t : Token} : t.kind = .int → numeralValue t ≤ Int64.max →
      Expr b k [t] (.integer t (numeralValue t))
  | string {k : Nat} {t : Token} : t.kind = .string → Expr b k [t] (.string t t.literal)
  | trueWord {k : Nat} {t : Token} : t.kind = .trueWord → Expr b k [t] (.boolean t true)
  | falseWord {k : Nat} {t : Token} : t.kind = .falseWord → Expr b k [t] (.boolean t false)
  | group {k : Nat} {l r : Token} {ts : List Token} {n : Node} : l.kind = .lparen →
      Expr b Precedence.lowest.rank ts n → r.kind = .rparen → Expr b k (l :: ts ++ [r]) n
  | array {k : Nat} {l r : Token} {ts : List Token} {ns : List Node} : l.kind = .lbracket →
      Items b ts ns → r.kind = .rbracket → Expr b k (l :: ts ++ [r]) (.array l ns)
  | prefixOp {k : Nat} {t : Token} {ts : List Token} {n : Node} : IsPrefix t.kind →
      Admits b k .unary → Expr b Precedence.unary.rank ts n →
      Expr b k (t :: ts) (.prefixOp t t.literal n)
  | infixOp {k : Nat} {t : Token} {ls rs : List Token} {l r : Node} : IsInfix t.kind →
      Admits b k (.ofKind t.kind) → Expr b (Precedence.ofKind t.kind).rank ls l →
      Expr b ((Precedence.ofKind t.kind).rank + 1) rs r →
      Expr b k (ls ++ t :: rs) (.infixOp t t.literal l r)
  | conditional {k : Nat} {w l r : Token} {cs bs : List Token} {c n : Node} : w.kind = .ifWord →
      l.kind = .lparen → Expr b Precedence.lowest.rank cs c → r.kind = .rparen → Block b bs n →
      Expr b k (w :: l :: cs ++ r :: bs) (.conditional w c n none)
  | alternative {k : Nat} {w l r e : Token} {cs bs ds : List Token} {c n m : Node} :
      w.kind = .ifWord → l.kind = .lparen → Expr b Precedence.lowest.rank cs c →
      r.kind = .rparen → Block b bs n → e.kind = .elseWord → Block b ds m →
      Expr b k (w :: l :: cs ++ r :: bs ++ e :: ds) (.conditional w c n (some m))
  | function {k : Nat} {w l r : Token} {ps bs : List Token} {is : List Ident} {n : Node} :
      w.kind = .fnWord → l.kind = .lparen → Names ps is → r.kind = .rparen → Block b bs n →
      Expr b k (w :: l :: ps ++ r :: bs) (.function w is n)
  | call {k : Nat} {l r : Token} {fs ts : List Token} {f : Node} {ns : List Node} :
      Expr b Precedence.call.rank fs f → l.kind = .lparen → Items b ts ns → r.kind = .rparen →
      Expr b k (fs ++ (l :: ts ++ [r])) (.call l f ns)
  | index {k : Nat} {l r : Token} {cs ts : List Token} {c n : Node} :
      Expr b Precedence.call.rank cs c → l.kind = .lbracket →
      Expr b Precedence.lowest.rank ts n → r.kind = .rbracket →
      Expr b k (cs ++ (l :: ts ++ [r])) (.index l c n)

inductive Items (b : Binding) : List Token → List Node → Prop where
  | nil : Items b [] []
  | one {ts : List Token} {n : Node} : Expr b Precedence.lowest.rank ts n → Items b ts [n]
  | cons {c : Token} {ts us : List Token} {n : Node} {ns : List Node} :
      Expr b Precedence.lowest.rank ts n → c.kind = .comma → Items b us ns → ns ≠ [] →
      Items b (ts ++ c :: us) (n :: ns)

inductive Block (b : Binding) : List Token → Node → Prop where
  | intro {l r : Token} {ts : List Token} {ns : List Node} : l.kind = .lbrace →
      Statements b ts ns → r.kind = .rbrace → Block b (l :: ts ++ [r]) (.block l ns)

/-- Statements with any number of semicolons before, between and after them. -/
inductive Statements (b : Binding) : List Token → List Node → Prop where
  | nil : Statements b [] []
  | semicolon {t : Token} {ts : List Token} {ns : List Node} : t.kind = .semicolon →
      Statements b ts ns → Statements b (t :: ts) ns
  | cons {ss ts : List Token} {n : Node} {ns : List Node} : Statement b ss n →
      Separated n ts → Statements b ts ns → Statements b (ss ++ ts) (n :: ns)

inductive Statement (b : Binding) : List Token → Node → Prop where
  | letStatement {w x a : Token} {ts : List Token} {n : Node} : w.kind = .letWord →
      x.kind = .ident → a.kind = .assign → Expr b Precedence.lowest.rank ts n →
      Statement b (w :: x :: a :: ts) (.letStatement w ⟨x, x.literal⟩ n)
  | returnValue {w : Token} {ts : List Token} {n : Node} : w.kind = .returnWord →
      Expr b Precedence.lowest.rank ts n → Statement b (w :: ts) (.returnStatement w (some n))
  | returnBare {w : Token} : w.kind = .returnWord → Statement b [w] (.returnStatement w none)
  | expression {t : Token} {ts : List Token} {n : Node} :
      Expr b Precedence.lowest.rank (t :: ts) n →
      Statement b (t :: ts) (.expressionStatement t n)

end

def StartsExpr (k : Kind) : Prop :=
  k ∈ [Kind.ident, .int, .string, .trueWord, .falseWord, .lparen, .lbracket, .bang, .minus,
    .ifWord, .fnWord]

instance (k : Kind) : Decidable (StartsExpr k) := inferInstanceAs (Decidable (_ ∈ _))

def StartsStatement (k : Kind) : Prop := StartsExpr k ∨ k = .letWord ∨ k = .returnWord

instance (k : Kind) : Decidable (StartsStatement k) := inferInstanceAs (Decidable (_ ∨ _))

section
variable {b : Binding} {k : Nat} {ts : List Token} {n : Node}

theorem Admits.mono {j : Nat} {p : Precedence} (h : Admits b k p) (hj : j ≤ k) : Admits b j p :=
  fun hb => Nat.le_trans hj (h hb)

theorem Expr.mono {j : Nat} (h : Expr b k ts n) (hj : j ≤ k) : Expr b j ts n := by
  cases h with
  | ident hk => exact .ident hk
  | integer hk hv => exact .integer hk hv
  | string hk => exact .string hk
  | trueWord hk => exact .trueWord hk
  | falseWord hk => exact .falseWord hk
  | group hl he hr => exact .group hl he hr
  | array hl hi hr => exact .array hl hi hr
  | prefixOp ht ha he => exact .prefixOp ht (ha.mono hj) he
  | infixOp ht ha hl hr => exact .infixOp ht (ha.mono hj) hl hr
  | conditional hw hl hc hr hb => exact .conditional hw hl hc hr hb
  | alternative hw hl hc hr hb he hd => exact .alternative hw hl hc hr hb he hd
  | function hw hl hp hr hb => exact .function hw hl hp hr hb
  | call hf hl hi hr => exact .call hf hl hi hr
  | index hc hl he hr => exact .index hc hl he hr

/-- An expression starts with a token that can start one; in particular it is not empty. -/
theorem Expr.head : ∀ {k : Nat} {ts : List Token} {n : Node}, Expr b k ts n →
    ∃ t us, ts = t :: us ∧ StartsExpr t.kind
  | _, _, _, .ident h | _, _, _, .integer h _ | _, _, _, .string h | _, _, _, .trueWord h
  | _, _, _, .falseWord h | _, _, _, .group h _ _ | _, _, _, .array h _ _
  | _, _, _, .conditional h _ _ _ _ | _, _, _, .alternative h _ _ _ _ _ _
  | _, _, _, .function h _ _ _ _ => ⟨_, _, rfl, by rw [h]; decide⟩
  | _, _, _, .prefixOp h _ _ => ⟨_, _, rfl, by rcases h with h | h <;> rw [h] <;> decide⟩
  | _, _, _, .infixOp _ _ hl _ | _, _, _, .call hl _ _ _ | _, _, _, .index hl _ _ _ => by
    obtain ⟨t, us, rfl, ht⟩ := hl.head
    exact ⟨t, _, rfl, ht⟩

theorem Expr.ne_nil (h : Expr b k ts n) : ts ≠ [] := by
  obtain ⟨t, us, rfl, -⟩ := h.head
  exact List.cons_ne_nil t us

theorem Statement.head (h : Statement b ts n) : ∃ t us, ts = t :: us ∧ StartsStatement t.kind := by
  cases h with
  | letStatement hw => exact ⟨_, _, rfl, .inr (.inl hw)⟩
  | returnValue hw => exact ⟨_, _, rfl, .inr (.inr hw)⟩
  | returnBare hw => exact ⟨_, _, rfl, .inr (.inr hw)⟩
  | expression he =>
    obtain ⟨t, us, heq, ht⟩ := he.head
    exact ⟨t, us, heq, .inl ht⟩

theorem Block.head (h : Block b ts n) : ∃ t us, ts = t :: us ∧ t.kind = .lbrace := by
  cases h with
  | intro hl => exact ⟨_, _, rfl, hl⟩

theorem Statements.head {ns : List Node} (h : Statements b ts ns) :
    ts = [] ∨ ∃ t us, ts = t :: us ∧ (t.kind = .semicolon ∨ StartsStatement t.kind) := by
  cases h with
  | nil => exact .inl rfl
  | semicolon ht => exact .inr ⟨_, _, rfl, .inl ht⟩
  | cons hs =>
    obtain ⟨t, us, rfl, ht⟩ := hs.head
    exact .inr ⟨t, _, rfl, .inr ht⟩

end

end Simian.Grammar
