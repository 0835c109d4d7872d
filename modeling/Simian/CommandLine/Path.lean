/-!
# File paths

Paths in a normal form: empty components and single dots are dropped, double dots stay. Two
leading slashes are kept as they are; any other number of them counts as one.
-/

namespace Simian

set_option autoImplicit false

structure FilePath where
  /-- The leading slashes. -/
  root : String
  parts : List String
  deriving DecidableEq, Repr

/-- The components between slashes. -/
def splitSlashes : List Char → List (List Char)
  | [] => [[]]
  | c :: rest =>
    if c = '/' then [] :: splitSlashes rest
    else match splitSlashes rest with
      | [] => [[c]]
      | part :: parts => (c :: part) :: parts

namespace FilePath

def rootOf : List Char → String
  | ['/', '/'] => "//"
  | '/' :: '/' :: '/' :: _ => "/"
  | '/' :: '/' :: _ => "//"
  | '/' :: _ => "/"
  | _ => ""

def ofString (s : String) : FilePath :=
  ⟨rootOf s.toList,
    ((splitSlashes s.toList).map String.ofList).filter fun part => part != "" && part != "."⟩

def text (p : FilePath) : String :=
  if p.root.isEmpty && p.parts.isEmpty then "." else p.root ++ "/".intercalate p.parts

/-- The path with `ending` put behind its last component. -/
def withEnding (p : FilePath) (ending : String) : FilePath :=
  { p with parts := p.parts.dropLast ++ (p.parts.getLast?.map (· ++ ending)).toList }

/-- The most bytes that a component may have. -/
def componentLimit : Nat := 255

/-- The most bytes that a path may have. -/
def pathLimit : Nat := 4095

def isLongComponent (part : String) : Bool := componentLimit < part.utf8ByteSize

def isLong (p : FilePath) : Bool := pathLimit < p.text.utf8ByteSize

end FilePath

end Simian
