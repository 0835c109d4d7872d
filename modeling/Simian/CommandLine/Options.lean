import Simian.Text.DecimalDigit

/-!
# Options

What a command line asks for. Words that start with a dash are options, whole or abbreviated, and
short ones may share a dash, the first of them with an equals sign behind it or not; after a
double dash every word is an argument. A word that looks like a negative number, in the digits of
any script, or that holds a space is an argument unless it starts an option. The three long
options exclude each other.
-/

namespace Simian.CommandLine

open Text
set_option autoImplicit false

inductive Flag where
  | help | verbose | tokens | emitAst | ast
  deriving DecidableEq, Repr

namespace Flag

/-- The short spellings, without their dash. -/
def short : List (Char × Flag) := [('h', help), ('v', verbose)]

/-- The long spellings, without their dashes. -/
def long : List (String × Flag) :=
  [("help", help), ("tokens", tokens), ("emit-ast", emitAst), ("ast", ast)]

def takesArgument : Flag → Bool
  | emitAst | ast => true
  | _ => false

end Flag

/-- A word of the command line and what it is. -/
inductive Word where
  | argument (text : String)
  /-- The double dash behind which every word is an argument. -/
  | marker
  /-- A long option and the argument written behind an equals sign. -/
  | long (flag : Flag) (value : Option String)
  /-- A short option and the further ones written behind it. -/
  | short (flag : Flag) (tail : List Char)
  /-- A short option with an equals sign and nothing behind it. -/
  | shortEquals (flag : Flag)
  /-- Something with a dash that is no option. -/
  | unknown
  /-- An abbreviation of several options. -/
  | ambiguous
  deriving DecidableEq, Repr

/-- The part before the first equals sign and the part behind it. -/
def splitValue (cs : List Char) : List Char × Option String :=
  let name := cs.takeWhile (· != '=')
  (name, if name.length < cs.length then some (String.ofList (cs.drop (name.length + 1))) else none)

/-- Digits, or digits around a point with at least one behind it; a line feed may end them. -/
def isUnsignedNumber (cs : List Char) : Bool :=
  let cs := if cs.getLast? == some '\n' then cs.dropLast else cs
  let units := cs.takeWhile isDecimal
  match cs.drop units.length with
  | [] => !units.isEmpty
  | '.' :: fraction => !fraction.isEmpty && fraction.all isDecimal
  | _ => false

/-- A word that starts no option. -/
def plainWord (text : String) (behindDash : List Char) : Word :=
  if isUnsignedNumber behindDash || text.toList.contains ' ' then .argument text else .unknown

/-- A word with two dashes: an option, or an abbreviation that only one option has. -/
def longWord (text : String) (cs : List Char) : Word :=
  let (name, value) := splitValue cs
  match Flag.long.lookup (String.ofList name) with
  | some flag => .long flag value
  | none =>
    match Flag.long.filter fun p => name.isPrefixOf p.1.toList with
    | [] => plainWord text ('-' :: cs)
    | [(_, flag)] => .long flag value
    | _ => .ambiguous

def word (text : String) : Word :=
  match text.toList with
  | ['-'] => .argument text
  | '-' :: '-' :: cs => longWord text cs
  | '-' :: c :: tail =>
    match Flag.short.lookup c with
    | none => plainWord text (c :: tail)
    | some flag =>
      match tail with
      | ['='] => .shortEquals flag
      | '=' :: more => .short flag more
      | _ => .short flag tail
  | _ => .argument text

def words : List String → List Word
  | [] => []
  | text :: rest =>
    if text = "--" then .marker :: rest.map .argument else word text :: words rest

structure Options where
  verbosity : Nat
  tokens : Bool
  emitAst : Option String
  ast : Option String
  program : Option String
  deriving DecidableEq, Repr

/-- Why a command line asks for nothing. -/
inductive Usage where
  /-- Help was asked for. -/
  | help
  | refused
  deriving DecidableEq, Repr

/-- What was read of a command line so far. -/
structure Progress where
  options : Options
  /-- Whether the place of the program is taken, even if by nothing. -/
  programTaken : Bool
  /-- Whether a word was left over. -/
  leftOver : Bool
  deriving Repr

def Progress.start : Progress := ⟨⟨0, false, none, none, none⟩, false, false⟩

/-- Sets an option; the long ones that say what to do exclude each other. -/
def take (p : Progress) (flag : Flag) (value : String) : Except Usage Progress :=
  let o := p.options
  match flag with
  | .help => .error .help
  | .verbose => .ok { p with options := { o with verbosity := o.verbosity + 1 } }
  | .tokens =>
    if o.emitAst.isSome || o.ast.isSome then .error .refused
    else .ok { p with options := { o with tokens := true } }
  | .emitAst =>
    if o.tokens || o.ast.isSome then .error .refused
    else .ok { p with options := { o with emitAst := some value } }
  | .ast =>
    if o.tokens || o.emitAst.isSome then .error .refused
    else .ok { p with options := { o with ast := some value } }

/-- The short options behind one dash; anything else among them is refused. -/
def cluster (flag : Flag) : List Char → Except Usage (List Flag)
  | [] => .ok [flag]
  | c :: tail =>
    match Flag.short.lookup c with
    | none => .error .refused
    | some next => (cluster next tail).map (flag :: ·)

def takeAll (p : Progress) : List Flag → Except Usage Progress
  | [] => .ok p
  | flag :: flags => do takeAll (← take p flag "") flags

/-- The argument of the program's place; a marker before or behind it belongs to it. -/
def takeProgram (p : Progress) (program : Option String) : Progress :=
  { p with options := { p.options with program := program }, programTaken := true }

/-- A value behind an equals sign; a double dash there stands for none. -/
def writtenValue (value : String) : String := if value = "--" then "" else value

/-- Reads words from left to right. -/
def readWords (p : Progress) : List Word → Except Usage Progress
  | [] => .ok p
  | .argument text :: .marker :: rest =>
    if p.programTaken then readWords { p with leftOver := true } rest
    else readWords (takeProgram p (some text)) rest
  | .argument text :: rest =>
    if p.programTaken then readWords { p with leftOver := true } rest
    else readWords (takeProgram p (some text)) rest
  | .marker :: .argument text :: rest =>
    if p.programTaken then readWords { p with leftOver := true } rest
    else readWords (takeProgram p (some text)) rest
  | .marker :: rest =>
    if p.programTaken then readWords { p with leftOver := true } rest
    else readWords (takeProgram p none) rest
  | .long flag value :: rest =>
    if flag.takesArgument then
      match value with
      | some value => do readWords (← take p flag (writtenValue value)) rest
      | none =>
        match rest with
        | .argument text :: rest => do readWords (← take p flag text) rest
        | _ => .error .refused
    else if value.isSome then .error .refused
    else do readWords (← take p flag "") rest
  | .short flag tail :: rest => do
    readWords (← takeAll p (← cluster flag tail)) rest
  | .shortEquals _ :: _ => .error .refused
  | .unknown :: rest => readWords { p with leftOver := true } rest
  | .ambiguous :: _ => .error .refused

/-- An ambiguous word refuses a command line before anything else is looked at. -/
def Options.read (args : List String) : Except Usage Options :=
  let ws := words args
  if ws.contains .ambiguous then .error .refused
  else
    match readWords .start ws with
    | .error usage => .error usage
    | .ok p => if p.leftOver then .error .refused else .ok p.options

end Simian.CommandLine
