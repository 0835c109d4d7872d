import Simian.Json
import Simian.Tree

/-!
# Storing trees as JSON

A node is an object with its class under `__node__` and a member for its token and for each
field; a token is an object with kind, literal, line and column; everything else is stored as
itself. Decoding reads nothing but these members: others are ignored, an absent field is null and
an absent line or column zero. The token of a node is read first and then its fields in order;
the first fault wins.
-/

namespace Simian

open Text
set_option autoImplicit false

inductive DecodeFault where
  /-- The name under `__node__` is none of the classes. -/
  | unknownClass (name : Json)
  /-- An object that is neither node nor token, or a number with a fraction. -/
  | invalid (value : Json)
  | missing (key : String)
  | unknownKind (kind : Json)
  /-- An array or object where a name belongs. -/
  | notName (value : Json)
  /-- Something other than an object where a token belongs. -/
  | notToken (value : Json)

def DecodeFault.message : DecodeFault → String
  | unknownClass name => "Unknown AST node type in JSON: " ++ name.plain
  | invalid value => "Invalid AST JSON object: " ++ value.display
  | missing key => quoted key
  | unknownKind kind => kind.display
  | notName (.arr _) => "unhashable type: 'list'"
  | notName _ => "unhashable type: 'dict'"
  | notToken (.str _) => "string indices must be integers, not 'str'"
  | notToken (.arr _) => "list indices must be integers or slices, not str"
  | notToken (.int _) => "'int' object is not subscriptable"
  | notToken (.bool _) => "'bool' object is not subscriptable"
  | notToken (.float _) => "'float' object is not subscriptable"
  | notToken _ => "'NoneType' object is not subscriptable"

def Token.toJson (t : Token) : Json :=
  .obj [("kind", .str t.kind.name), ("literal", .str t.literal),
    ("line", .int t.position.line), ("column", .int t.position.column)]

/-- A stored line or column; zero when there is none. -/
def Position.ofMember : Option Json → Int
  | some (.int n) => n
  | _ => 0

def Kind.ofJson : Json → Except DecodeFault Kind
  | .str s =>
    match Kind.ofName? s with
    | some k => .ok k
    | none => .error (.unknownKind (.str s))
  | .arr items => .error (.notName (.arr items))
  | .obj members => .error (.notName (.obj members))
  | j => .error (.unknownKind j)

/-- The kind is read before the literal. -/
def Token.ofJson (j : Json) : Except DecodeFault Token :=
  match j with
  | .obj members =>
    match members.lookup "kind" with
    | none => .error (.missing "kind")
    | some kind =>
      match Kind.ofJson kind with
      | .error fault => .error fault
      | .ok kind =>
        match members.lookup "literal" with
        | some (.str literal) =>
          .ok ⟨kind, literal, ⟨Position.ofMember (members.lookup "line"),
            Position.ofMember (members.lookup "column")⟩⟩
        | _ => .error (.missing "literal")
  | j => .error (.notToken j)

namespace Tree

mutual

def toJson : Tree → Json
  | null => .null
  | bool b => .bool b
  | int n => .int n
  | text s => .str s
  | list items => .arr (toJsons items)
  | token t => t.toJson
  | node cls own fields =>
    .obj (("__node__", .str cls.name) ::
      ((own.map fun t => ("token", t.toJson)).toList ++ cls.fields.zip (toJsons fields)))

def toJsons : List Tree → List Json
  | [] => []
  | t :: ts => t.toJson :: toJsons ts

end

/-- The trees under `keys` in order, null for one that is absent, up to the first fault. -/
def pick (decoded : List (String × Except DecodeFault Tree)) :
    List String → Except DecodeFault (List Tree)
  | [] => .ok []
  | key :: keys =>
    match decoded.lookup key with
    | none => do return .null :: (← pick decoded keys)
    | some (.error fault) => .error fault
    | some (.ok t) => do return t :: (← pick decoded keys)

/-- The token that a node of class `cls` is stored with. -/
def pickToken (cls : NodeClass) (members : List (String × Json)) :
    Except DecodeFault (Option Token) :=
  if cls.hasToken then
    match members.lookup "token" with
    | none => .error (.missing "token")
    | some j => (Token.ofJson j).map some
  else .ok none

/-- A node from its members and what each of them decodes to. -/
def ofMembers (members : List (String × Json)) (decoded : List (String × Except DecodeFault Tree)) :
    Except DecodeFault Tree :=
  match members.lookup "__node__" with
  | some name =>
    match name with
    | .str s =>
      match NodeClass.ofName? s with
      | some cls => do
        let own ← pickToken cls members
        return .node cls own (← pick decoded cls.fields)
      | none => .error (.unknownClass name)
    | .arr _ | .obj _ => .error (.notName name)
    | _ => .error (.unknownClass name)
  | none =>
    if (members.lookup "kind").isSome && (members.lookup "literal").isSome then
      (Token.ofJson (.obj members)).map token
    else .error (.invalid (.obj members))

mutual

def ofJson : Json → Except DecodeFault Tree
  | .null => .ok null
  | .bool b => .ok (bool b)
  | .int n => .ok (int n)
  | .float x => .error (.invalid (.float x))
  | .str s => .ok (text s)
  | .arr items => (ofJsons items).map list
  | .obj members => ofMembers members (decodeMembers members)

def ofJsons : List Json → Except DecodeFault (List Tree)
  | [] => .ok []
  | j :: js => do
    let t ← ofJson j
    return t :: (← ofJsons js)

/-- What each member holds, decoded on its own. -/
def decodeMembers : List (String × Json) → List (String × Except DecodeFault Tree)
  | [] => []
  | (key, j) :: ms => (key, ofJson j) :: decodeMembers ms

end

end Tree

end Simian
