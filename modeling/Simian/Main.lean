import Simian.CommandLine.Task

/-!
# The program

The outer layer: it reads the file or the input that a task needs and writes its report. A session
is answered line by line as its input comes in. All decisions are made in `Simian.CommandLine`.
-/

namespace Simian.Main

open CommandLine
set_option autoImplicit false

/-- What the file system has under a path. -/
def find (path : FilePath) : IO Found := do
  try
    return .file (← IO.FS.readFile path.text)
  catch
    | .noFileOrDirectory .. => return .nothing
    | .inappropriateType .. => return .unreadable .directory
    | e => throw e

/-- Writes a report and gives the exit code. -/
def write (report : Report) : IO UInt32 := do
  for (path, text) in report.written do
    IO.FS.writeFile path text
  IO.print report.stdout
  IO.eprint report.stderr
  match report.exit with
  | .ok code => return code.toUInt32
  | .error fault => do
    IO.eprintln fault.message
    return 1

/-- Answers the lines of the input until it ends, starting from a machine. -/
partial def converse (tokensOnly : Bool) (verbosity : Nat) (m : Machine) : IO UInt32 := do
  IO.print Session.prompt
  (← IO.getStdout).flush
  let text ← (← IO.getStdin).getLine
  let finish (exit : Except Fault Nat) (m : Machine) : IO UInt32 :=
    write ⟨exit, m.output, "", traceFiles verbosity m⟩
  if text.isEmpty then finish (.ok 0) m
  else
    match Session.line tokensOnly verbosity text m with
    | .error fault m => finish (.error fault) m
    | .ok _ m =>
      IO.print m.output
      converse tokensOnly verbosity { m with output := "" }

def perform : Task → IO UInt32
  | .session tokensOnly verbosity => converse tokensOnly verbosity .initial
  | task => do
    let found ← (task.path?.mapM find : IO (Option Found))
    write (task.run (fun _ => found.getD .nothing) "")

end Simian.Main

def main (args : List String) : IO UInt32 :=
  match Simian.CommandLine.Options.read args with
  | .error usage => Simian.Main.write usage.report
  | .ok options => Simian.Main.perform options.task
