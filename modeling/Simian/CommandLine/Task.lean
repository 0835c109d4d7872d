import Simian.CommandLine.Options
import Simian.CommandLine.Path
import Simian.Json.Printer
import Simian.Session

/-!
# Tasks

What a command line makes the program do, as a function from the files and the input to what is
written and how it ends. A run that a fault ends has still written what came before the fault.
-/

namespace Simian.CommandLine

set_option autoImplicit false

inductive Task where
  /-- Stores the tree of a program beside it. -/
  | emitAst (path : FilePath)
  /-- Runs a stored tree. -/
  | runTree (path : FilePath) (verbosity : Nat)
  | session (tokensOnly : Bool) (verbosity : Nat)
  | listTokens (path : FilePath)
  | runProgram (path : FilePath) (verbosity : Nat)
  deriving DecidableEq, Repr

/-- The file that a value names, when there is a value and it is not empty. -/
def named (value : Option String) : Option FilePath :=
  match value with
  | some s => if s.isEmpty then none else some (FilePath.ofString s)
  | none => none

def Options.task (o : Options) : Task :=
  match named o.emitAst, named o.ast, named o.program with
  | some path, _, _ => .emitAst path
  | none, some path, _ => .runTree path o.verbosity
  | none, none, none => .session o.tokens o.verbosity
  | none, none, some path => if o.tokens then .listTokens path else .runProgram path o.verbosity

/-- The file that a task reads. -/
def Task.path? : Task → Option FilePath
  | emitAst path | runTree path _ | listTokens path | runProgram path _ => some path
  | session .. => none

/-- What is found under a path. -/
inductive Found where
  | nothing
  /-- Something that cannot be read as a file. -/
  | unreadable (fault : FileFault)
  | file (text : String)
  deriving DecidableEq, Repr

structure Report where
  /-- The exit code, unless a fault ended the run. -/
  exit : Except Fault Nat
  stdout : String
  stderr : String
  /-- The files written, each under its path. -/
  written : List (String × String)

namespace Report

def done (stdout : String) : Report := ⟨.ok 0, stdout, "", []⟩

def failed (stderr : String) : Report := ⟨.ok 1, "", stderr, []⟩

def faulty (fault : Fault) : Report := ⟨.error fault, "", "", []⟩

end Report

/-- The file that holds the trace. -/
def traceFile : String := "debug.txt"

/-- The trace as a file, which there is only with some verbosity. -/
def traceFiles (verbosity : Nat) (m : Machine) : List (String × String) :=
  if verbosity = 0 then [] else [(traceFile, m.traceText)]

/-- Continues with the text of the file under a path, its line ends unified. -/
def withFile (path : FilePath) (found : Found) (k : String → Report) : Report :=
  match found with
  | .nothing => .failed ("Error: file " ++ path.text ++ " not found\n")
  | .unreadable fault => .faulty (.file fault)
  | .file text => k (Text.unifyLines text)

/-- Continues with the statements of a source; syntax errors are reported. -/
def withProgram (source : String) (k : List Node → Report) : Report :=
  match parseStrict source with
  | .ok statements => k statements
  | .error (.errors es) => .failed (Session.errorReport es)
  | .error fault => .faulty (.source fault)

/-- Runs statements and prints their value: an error among the messages, `null` not at all. -/
def execute (verbosity : Nat) (statements : List Node) : Report :=
  match Eval.run verbosity Store.globalScope statements .initial with
  | .error fault m => ⟨.error (.eval fault), m.output, "", traceFiles verbosity m⟩
  | .ok v m =>
    let files := traceFiles verbosity m
    match v with
    | .error _ => ⟨.ok 1, m.output, v.inspect ++ "\n", files⟩
    | .null => ⟨.ok 0, m.output, "", files⟩
    | v => ⟨.ok 0, m.output ++ v.inspect ++ "\n", "", files⟩

/-- Runs a stored tree, which must be a program or a block. -/
def executeTree (verbosity : Nat) (t : Tree) : Report :=
  let n := Node.ofTree t
  match n.statements? with
  | some ss => execute verbosity ss
  | none => ⟨.error (.eval (.noStatements n)), "", "", traceFiles verbosity .initial⟩

def runSession (tokensOnly : Bool) (verbosity : Nat) (input : String) : Report :=
  match Session.run tokensOnly verbosity input .initial with
  | .ok _ m => ⟨.ok 0, m.output, "", traceFiles verbosity m⟩
  | .error fault m => ⟨.error fault, m.output, "", traceFiles verbosity m⟩

def emittedEnding : String := ".ast.json"

/-- The text under which a program is stored. -/
def emitted (statements : List Node) : String := (Node.program statements).toTree.toJson.pretty

/-- Stores a program under a path and prints the path. -/
def emitTo (target : FilePath) (statements : List Node) : Report :=
  if target.isLong || target.parts.any FilePath.isLongComponent then
    .faulty (.file .nameTooLong)
  else ⟨.ok 0, target.text ++ "\n", "", [(target.text, emitted statements)]⟩

/-- Carries out a task, with `find` looking up the file that it reads. -/
def Task.run (find : FilePath → Found) (input : String) : Task → Report
  | emitAst path =>
    withFile path (find path) fun source =>
      withProgram source fun statements =>
        emitTo (path.withEnding emittedEnding) statements
  | runTree path verbosity =>
    withFile path (find path) fun text =>
      match Tree.read text with
      | .error fault => .faulty fault
      | .ok t => executeTree verbosity t
  | session tokensOnly verbosity => runSession tokensOnly verbosity input
  | listTokens path =>
    withFile path (find path) fun source =>
      .done (Session.tokenListing (tokenize source).toList)
  | runProgram path verbosity =>
    withFile path (find path) fun source => withProgram source (execute verbosity)

/-- How the program is used. -/
def usageText : String :=
  "usage: [-h] [-v] [--tokens | --emit-ast PROGRAM_FILE | --ast AST_JSON_FILE] [program]\n"

/-- The report on a command line that asks for nothing. -/
def Usage.report : Usage → Report
  | help => .done usageText
  | refused => ⟨.ok 2, "", usageText, []⟩

/-- Carries out what a command line asks for. -/
def run (args : List String) (find : FilePath → Found) (input : String) : Report :=
  match Options.read args with
  | .error usage => usage.report
  | .ok options => options.task.run find input

end Simian.CommandLine
