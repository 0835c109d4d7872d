import Simian.Token

/-!
# Token streams

The tokens of a source followed by its end token. Reading past the end gives the end token again,
so there is always a current token and a next one.
-/

namespace Simian

set_option autoImplicit false

structure TokenStream where
  /-- What stands before the end. -/
  tokens : List Token
  /-- The end token, which repeats without limit. -/
  eof : Token
  deriving DecidableEq, Repr

namespace TokenStream

/-- The token at place `i`, counted from the current one. -/
def get (s : TokenStream) (i : Nat) : Token := s.tokens.getD i s.eof

def cur (s : TokenStream) : Token := s.get 0

def peek (s : TokenStream) : Token := s.get 1

def next (s : TokenStream) : TokenStream := ⟨s.tokens.tail, s.eof⟩

def toList (s : TokenStream) : List Token := s.tokens ++ [s.eof]

@[simp] theorem next_eof (s : TokenStream) : s.next.eof = s.eof := rfl

@[simp] theorem next_tokens (s : TokenStream) : s.next.tokens = s.tokens.tail := rfl

@[simp] theorem get_next (s : TokenStream) (i : Nat) : s.next.get i = s.get (i + 1) := by
  cases s with
  | mk tokens eof => cases tokens <;> simp [get, next]

@[simp] theorem cur_next (s : TokenStream) : s.next.cur = s.peek := get_next s 0

@[simp] theorem cur_nil (eof : Token) : (TokenStream.mk [] eof).cur = eof := rfl

@[simp] theorem cur_cons (t eof : Token) (ts : List Token) :
    (TokenStream.mk (t :: ts) eof).cur = t := rfl

theorem next_tokens_length (s : TokenStream) :
    s.next.tokens.length = s.tokens.length - 1 := by simp

end TokenStream

end Simian
