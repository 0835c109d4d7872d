import Simian.Token.Lexeme
import Simian.Token.Stream

/-!
# Reading a source

A cursor is a place in a source: what is left to read, how much was read, and the line and
column. It moves by whole characters and never past the end. Reading a token skips blanks and
takes the lexeme that follows; at the end of the source every read gives an end token and moves
nothing further.
-/

namespace Simian

open Text
set_option autoImplicit false

structure Cursor where
  rest : List Char
  offset : Nat
  position : Position
  deriving DecidableEq, Repr

/-- The place after a character: a line feed starts a line, all else takes one column. -/
def Position.after (p : Position) (c : Char) : Position :=
  if c = '\n' then ⟨p.line + 1, 1⟩ else ⟨p.line, p.column + 1⟩

namespace Cursor

def ofList (source : List Char) : Cursor := ⟨source, 0, ⟨1, 1⟩⟩

def start (source : String) : Cursor := ofList source.toList

def current (c : Cursor) : Option Char := c.rest.head?

def peek (c : Cursor) : Option Char := c.rest.tail.head?

/-- Moves over `n` characters, or as many as there are. -/
def advance : Nat → Cursor → Cursor
  | 0, c => c
  | n + 1, c =>
    match c.rest with
    | [] => c
    | x :: rest => advance n ⟨rest, c.offset + 1, c.position.after x⟩

def skipBlanks (c : Cursor) : Cursor := advance (c.rest.takeWhile isBlank).length c

/-- The token at the cursor, blanks skipped, and the cursor behind it. -/
def next (c : Cursor) : Token × Cursor :=
  let here := c.skipBlanks
  match here.rest with
  | [] => (⟨.eof, "", here.position⟩, here)
  | x :: rest =>
    let lexeme := Lexeme.first x rest
    (⟨lexeme.kind, String.ofList lexeme.literal, here.position⟩, advance lexeme.width here)

@[simp] theorem advance_zero (c : Cursor) : advance 0 c = c := rfl

@[simp] theorem advance_end (n offset : Nat) (p : Position) :
    advance n ⟨[], offset, p⟩ = ⟨[], offset, p⟩ := by cases n <;> rfl

@[simp] theorem advance_cons (n offset : Nat) (p : Position) (x : Char) (rest : List Char) :
    advance (n + 1) ⟨x :: rest, offset, p⟩ = advance n ⟨rest, offset + 1, p.after x⟩ := rfl

theorem advance_rest (n : Nat) (c : Cursor) : (advance n c).rest = c.rest.drop n := by
  induction n generalizing c with
  | zero => rfl
  | succ n ih =>
    obtain ⟨rest, offset, p⟩ := c
    cases rest with
    | nil => simp
    | cons x rest => simp [ih]

theorem advance_offset (n : Nat) (c : Cursor) :
    (advance n c).offset = c.offset + min n c.rest.length := by
  induction n generalizing c with
  | zero => simp
  | succ n ih =>
    obtain ⟨rest, offset, p⟩ := c
    cases rest with
    | nil => simp
    | cons x rest => simp [ih]; omega

theorem advance_position (n : Nat) (c : Cursor) :
    (advance n c).position = (c.rest.take n).foldl Position.after c.position := by
  induction n generalizing c with
  | zero => simp
  | succ n ih =>
    obtain ⟨rest, offset, p⟩ := c
    cases rest with
    | nil => simp
    | cons x rest => simp [ih]

theorem advance_advance (m n : Nat) (c : Cursor) : advance m (advance n c) = advance (n + m) c := by
  induction n generalizing c with
  | zero => simp
  | succ n ih =>
    obtain ⟨rest, offset, p⟩ := c
    cases rest with
    | nil => simp
    | cons x rest => simp [Nat.add_right_comm n 1 m, ih]

theorem skipBlanks_rest (c : Cursor) : c.skipBlanks.rest = c.rest.dropWhile isBlank := by
  rw [skipBlanks, advance_rest]
  induction c.rest with
  | nil => rfl
  | cons x rest ih => by_cases h : isBlank x <;> simp [h, ih]

/-- A token other than the end token takes something from the source. -/
theorem next_rest_lt (c : Cursor) (h : c.skipBlanks.rest ≠ []) :
    c.next.2.rest.length < c.rest.length := by
  have hd : (c.rest.dropWhile isBlank).length ≤ c.rest.length :=
    (List.dropWhile_suffix isBlank).length_le
  rw [← skipBlanks_rest] at hd
  cases he : c.skipBlanks.rest with
  | nil => exact absurd he h
  | cons x rest =>
    have hw := Lexeme.first_width_pos x rest
    simp only [next, he, advance_rest, List.length_drop, List.length_cons] at hd ⊢
    omega

/-- The tokens up to the end of the source, at most `n` of them, and the cursor behind the end. -/
def readUpTo : Nat → Cursor → TokenStream × Cursor
  | 0, c => (⟨[], c.next.1⟩, c.next.2)
  | n + 1, c =>
    let (token, after) := c.next
    if token.kind = .eof then (⟨[], token⟩, after)
    else
      let (stream, last) := readUpTo n after
      (⟨token :: stream.tokens, stream.eof⟩, last)

/-- All tokens from the cursor on. A source has no more tokens than characters. -/
def read (c : Cursor) : TokenStream × Cursor := readUpTo c.rest.length c

def stream (c : Cursor) : TokenStream := c.read.1

end Cursor

/-- The tokens of a source. -/
def tokenize (source : String) : TokenStream := (Cursor.start source).stream

end Simian
