import Simian.CommandLine.Task

/-!
# Listings

A directory given as the list of its files, each with its path inside the directory and its text,
and the look-up of paths in it. Double dots lead to the enclosing directory; outside the directory
nothing is seen but the directories that enclose it.
-/

namespace Simian.CommandLine

set_option autoImplicit false

abbrev Listing := List (String × String)

namespace Listing

/-- The text of the file at a place inside the directory. -/
def file? (files : Listing) (place : List String) : Option String :=
  (files.find? fun f => (FilePath.ofString f.1).parts == place).map Prod.snd

/-- A place below the directory, or so many levels above it and then down again. -/
structure Place where
  above : Nat
  parts : List String
  deriving DecidableEq, Repr

/-- Whether a place is a directory: the one listed, one that encloses it, or one with a file
somewhere below it. -/
def isDirectory (files : Listing) (place : Place) : Bool :=
  place.parts.isEmpty || place.above == 0 && files.any fun f =>
    let parts := (FilePath.ofString f.1).parts
    place.parts.isPrefixOf parts && place.parts.length < parts.length

/-- The place to which a component leads. -/
def Place.enter (place : Place) (part : String) : Place :=
  if part ≠ ".." then ⟨place.above, place.parts ++ [part]⟩
  else if place.parts.isEmpty then ⟨place.above + 1, []⟩
  else ⟨place.above, place.parts.dropLast⟩

/-- What is found at the end of components, each of which has to lie in a directory. -/
def walk (files : Listing) (place : Place) : List String → Found
  | [] =>
    if isDirectory files place then .unreadable .directory
    else if place.above = 0 then
      match file? files place.parts with
      | some text => .file text
      | none => .nothing
    else .nothing
  | part :: parts =>
    if !isDirectory files place then .nothing
    else if FilePath.isLongComponent part then .unreadable .nameTooLong
    else walk files (place.enter part) parts

/-- What a path leads to. A path from the root only ever finds the root. -/
def find (files : Listing) (path : FilePath) : Found :=
  if path.isLong then .unreadable .nameTooLong
  else walk files ⟨if path.root.isEmpty then 0 else 1, []⟩ path.parts

/-- The written files that were not there before. -/
def added (files : Listing) (written : List (String × String)) : List (String × String) :=
  written.filter fun f => (file? files (FilePath.ofString f.1).parts).isNone

end Listing

end Simian.CommandLine
