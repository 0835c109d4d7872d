import Simian.Json

/-!
# Writing JSON

Two layouts of a value: on one line without spaces, and indented by two spaces a level with empty
arrays and objects kept on their line. Quotes, backslashes and the control characters below the
space are escaped; every other character stands for itself.
-/

namespace Simian.Json

open Text
set_option autoImplicit false

def escapeChar (c : Char) : List Char :=
  if c = '\x22' then ['\\', '\x22']
  else if c = '\\' then ['\\', '\\']
  else if c = '\n' then ['\\', 'n']
  else if c = '\r' then ['\\', 'r']
  else if c = '\t' then ['\\', 't']
  else if c = '\x08' then ['\\', 'b']
  else if c = '\x0c' then ['\\', 'f']
  else if c.toNat < 0x20 then '\\' :: 'u' :: hex 4 c.toNat
  else [c]

def string (s : String) : String :=
  String.ofList ('\x22' :: s.toList.flatMap escapeChar ++ ['\x22'])

/-- Numbers are written as they are shown, but for those that are not finite. -/
def number : Binary64 → String
  | .nan => "NaN"
  | .infinite negative => (if negative then "-" else "") ++ "Infinity"
  | x => x.display

mutual

def compact : Json → String
  | null => "null"
  | bool b => if b then "true" else "false"
  | int n => toString n
  | float x => number x
  | str s => string s
  | arr items => "[" ++ ",".intercalate (compactItems items) ++ "]"
  | obj members => "\x7b" ++ ",".intercalate (compactMembers members) ++ "\x7d"

def compactItems : List Json → List String
  | [] => []
  | j :: js => j.compact :: compactItems js

def compactMembers : List (String × Json) → List String
  | [] => []
  | (k, j) :: ms => (string k ++ ":" ++ j.compact) :: compactMembers ms

end

/-- A line feed and the indentation of a level. -/
def breakLine (level : Nat) : String :=
  String.ofList ('\n' :: List.replicate (2 * level) ' ')

/-- Parts between brackets, each on a line of its own one level further in. -/
def enclose (left right : String) (level : Nat) (parts : List String) : String :=
  if parts.isEmpty then left ++ right
  else left ++ breakLine (level + 1) ++ ("," ++ breakLine (level + 1)).intercalate parts
    ++ breakLine level ++ right

mutual

def indented (level : Nat) : Json → String
  | arr items => enclose "[" "]" level (indentedItems (level + 1) items)
  | obj members => enclose "\x7b" "\x7d" level (indentedMembers (level + 1) members)
  | null => "null"
  | bool b => if b then "true" else "false"
  | int n => toString n
  | float x => number x
  | str s => string s

def indentedItems (level : Nat) : List Json → List String
  | [] => []
  | j :: js => j.indented level :: indentedItems level js

def indentedMembers (level : Nat) : List (String × Json) → List String
  | [] => []
  | (k, j) :: ms => (string k ++ ": " ++ j.indented level) :: indentedMembers level ms

end

def pretty (j : Json) : String := j.indented 0

end Simian.Json
