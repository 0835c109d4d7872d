import Simian.Number.Shortest
import Simian.Text.Quoted

/-!
# JSON values

Values of the data format in which trees are stored. Members keep their order; integers are of
any size and apart from numbers with a fraction or an exponent.
-/

namespace Simian

open Text
set_option autoImplicit false

inductive Json where
  | null
  | bool (b : Bool)
  | int (n : Int)
  | float (x : Binary64)
  | str (s : String)
  | arr (items : List Json)
  | obj (members : List (String × Json))

namespace Json

def get? : Json → String → Option Json
  | obj members, key => members.lookup key
  | _, _ => none

mutual

/-- How a message shows a value: texts quoted, the constants capitalised. -/
def display : Json → String
  | null => "None"
  | bool b => if b then "True" else "False"
  | int n => toString n
  | float x => x.display
  | str s => quoted s
  | arr items => "[" ++ ", ".intercalate (displayItems items) ++ "]"
  | obj members => "\x7b" ++ ", ".intercalate (displayMembers members) ++ "\x7d"

def displayItems : List Json → List String
  | [] => []
  | j :: js => j.display :: displayItems js

def displayMembers : List (String × Json) → List String
  | [] => []
  | (k, j) :: ms => (quoted k ++ ": " ++ j.display) :: displayMembers ms

end

/-- As `display`, with a text standing for itself. -/
def plain : Json → String
  | str s => s
  | j => j.display

end Json

end Simian
