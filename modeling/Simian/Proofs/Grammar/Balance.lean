import Simian.Proofs.Grammar
import Simian.Proofs.Parser.Takes

/-!
# Brackets balance

Whatever the grammar derives closes as many brackets as it opens, and never one it has not
opened. The bracket depth behind such tokens is therefore the one before them.
-/

namespace Simian.ParserState

set_option autoImplicit false

/-- The bracket depth behind tokens that start at a depth, never below zero. -/
def depthBehind (depth : Nat) (ts : List Token) : Nat :=
  ts.foldl (fun d t => depthAfter d t.kind) depth

@[simp] theorem depthBehind_nil (d : Nat) : depthBehind d [] = d := rfl

@[simp] theorem depthBehind_cons (d : Nat) (t : Token) (ts : List Token) :
    depthBehind d (t :: ts) = depthBehind (depthAfter d t.kind) ts := rfl

@[simp] theorem depthBehind_append (d : Nat) (ts us : List Token) :
    depthBehind d (ts ++ us) = depthBehind (depthBehind d ts) us := List.foldl_append

theorem depthAfter_opener {k : Kind} (h : k.isOpener = true) {d : Nat} :
    depthAfter d k = d + 1 := if_pos h

theorem depthAfter_closer {k : Kind} (h : k.isCloser = true) {d : Nat} :
    depthAfter (d + 1) k = d := by
  cases k <;> first | exact absurd h (by decide) | rfl

theorem depthAfter_other {k : Kind} (h : k.isOpener = false ∧ k.isCloser = false) {d : Nat} :
    depthAfter d k = d := by
  rw [depthAfter, h.1, h.2]
  rfl

theorem Passes.depth_eq {s t : ParserState} {ts : List Token} (h : Passes s ts t) :
    t.depth = depthBehind s.depth ts := by
  induction ts generalizing s with
  | nil => rw [h.eq]; rfl
  | cons a ts ih =>
    obtain ⟨hcur, hrest⟩ := h.uncons
    rw [ih hrest, depthBehind_cons, ← hcur]
    rfl

end Simian.ParserState

namespace Simian.Grammar

open ParserState
set_option autoImplicit false

/-- The depth behind the tokens is the one before them. -/
def Balanced (ts : List Token) : Prop := ∀ d, depthBehind d ts = d

def Plain (k : Kind) : Prop := k.isOpener = false ∧ k.isCloser = false

instance (k : Kind) : Decidable (Plain k) := inferInstanceAs (Decidable (_ ∧ _))

section
variable {t l r : Token} {ts us : List Token}

theorem Balanced.nil : Balanced [] := fun _ => rfl

theorem Balanced.append (hts : Balanced ts) (hus : Balanced us) : Balanced (ts ++ us) := by
  intro d
  rw [depthBehind_append, hts, hus]

theorem Balanced.cons (ht : Plain t.kind) (hts : Balanced ts) : Balanced (t :: ts) := by
  intro d
  rw [depthBehind_cons, depthAfter_other ht, hts]

theorem Balanced.kind {k : Kind} (ht : t.kind = k) (hk : Plain k) (hts : Balanced ts) :
    Balanced (t :: ts) := .cons (ht ▸ hk) hts

theorem Balanced.enclosed {j k : Kind} (hl : l.kind = j) (hts : Balanced ts) (hr : r.kind = k)
    (hj : j.isOpener = true) (hk : k.isCloser = true) : Balanced (l :: ts ++ [r]) := by
  intro d
  rw [depthBehind_append, depthBehind_cons d, depthAfter_opener (hl ▸ hj), hts, depthBehind_cons,
    depthAfter_closer (hr ▸ hk), depthBehind_nil]

theorem IsPrefix.plain {k : Kind} (h : IsPrefix k) : Plain k := by
  rcases h with rfl | rfl <;> decide

theorem IsInfix.plain {k : Kind} (h : IsInfix k) : Plain k := by
  revert h
  cases k <;> decide

theorem Names.balanced {is : List Ident} (h : Names ts is) : Balanced ts := by
  induction h with
  | nil => exact .nil
  | one hk => exact .kind hk (by decide) .nil
  | cons hk hc _ _ ih => exact .kind hk (by decide) (.kind hc (by decide) ih)

theorem Balanced.headed {w : Token} {k : Kind} (hw : w.kind = k) (hk : Plain k)
    (hl : l.kind = .lparen) (hts : Balanced ts) (hr : r.kind = .rparen) (hus : Balanced us) :
    Balanced (w :: l :: ts ++ r :: us) := by
  have hall := Balanced.kind hw hk
    ((hts.enclosed hl hr (by decide) (by decide)).append hus)
  rwa [List.append_assoc] at hall

end

mutual

theorem Expr.balanced {b : Binding} {k : Nat} {ts : List Token} {n : Node} :
    Expr b k ts n → Balanced ts
  | .ident h => .kind h (by decide) .nil
  | .integer h _ => .kind h (by decide) .nil
  | .string h => .kind h (by decide) .nil
  | .trueWord h => .kind h (by decide) .nil
  | .falseWord h => .kind h (by decide) .nil
  | .group hl he hr => .enclosed hl he.balanced hr (by decide) (by decide)
  | .array hl hi hr => .enclosed hl hi.balanced hr (by decide) (by decide)
  | .prefixOp h _ he => .cons h.plain he.balanced
  | .infixOp h _ hl hr => hl.balanced.append (.cons h.plain hr.balanced)
  | .conditional hw hl hc hr hb => .headed hw (by decide) hl hc.balanced hr hb.balanced
  | .alternative hw hl hc hr hb he hd =>
    (Balanced.headed hw (by decide) hl hc.balanced hr hb.balanced).append
      (.kind he (by decide) hd.balanced)
  | .function hw hl hp hr hb => .headed hw (by decide) hl hp.balanced hr hb.balanced
  | .call hf hl hi hr => hf.balanced.append (.enclosed hl hi.balanced hr (by decide) (by decide))
  | .index hc hl he hr => hc.balanced.append (.enclosed hl he.balanced hr (by decide) (by decide))

theorem Items.balanced {b : Binding} {ts : List Token} {ns : List Node} :
    Items b ts ns → Balanced ts
  | .nil => .nil
  | .one he => he.balanced
  | .cons he hc hi _ => he.balanced.append (.kind hc (by decide) hi.balanced)

theorem Block.balanced {b : Binding} {ts : List Token} {n : Node} : Block b ts n → Balanced ts
  | .intro hl hs hr => .enclosed hl hs.balanced hr (by decide) (by decide)

theorem Statements.balanced {b : Binding} {ts : List Token} {ns : List Node} :
    Statements b ts ns → Balanced ts
  | .nil => .nil
  | .semicolon h hs => .kind h (by decide) hs.balanced
  | .cons hn _ hs => hn.balanced.append hs.balanced

theorem Statement.balanced {b : Binding} {ts : List Token} {n : Node} :
    Statement b ts n → Balanced ts
  | .letStatement hw hx ha he =>
    .kind hw (by decide) (.kind hx (by decide) (.kind ha (by decide) he.balanced))
  | .returnValue hw he => .kind hw (by decide) he.balanced
  | .returnBare hw => .kind hw (by decide) .nil
  | .expression he => he.balanced

end

end Simian.Grammar
