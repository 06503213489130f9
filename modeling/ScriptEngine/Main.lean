import ScriptEngine.CommandLine

/-!
# The program

Reads the arguments, the files they name and, for an interactive session, the input line by line, and
writes what `CommandLine` and `Repl` report.
-/

namespace ScriptEngine.Main

/-- More steps than a run takes in a lifetime. -/
def allowance : Nat := 0x4000000000000000

/-- Writes a report to the two output streams. -/
def emitReport (report : Report) : IO Unit := do
  IO.print report.stdout
  IO.eprint report.stderr
  (← IO.getStdout).flush

/-- The text of a file, if it can be read. -/
def readFile? (path : String) : IO (Option String) := do
  match ← (IO.FS.readFile path).toBaseIO with
  | .ok text => return some text
  | .error _ => return none

/-- Feeds the session with lines until it ends. -/
partial def converse (session : Repl) : IO Unit := do
  match Repl.lines (← (← IO.getStdin).getLine) with
  | [] => emitReport (session.finish {})
  | line :: _ =>
    unless session.isExit line do
      let (session, report) := session.feed allowance line {}
      emitReport report
      converse session

/-- Runs what the arguments ask for, with the text of the script if there is one. -/
def runBatch (args : List String) (script : Option String) : IO UInt32 := do
  let (code, report) := CommandLine.run allowance args (fun _ => script) ""
  emitReport report
  return code.toUInt32

end ScriptEngine.Main

open ScriptEngine in
def main (args : List String) : IO UInt32 := do
  match CommandLine.parse args with
  | .run o =>
    if o.isInteractive then
      IO.println Repl.banner
      Main.converse { engine := .start o.config }
      return 0
    match o.script with
    | some path => Main.runBatch args (← Main.readFile? path)
    | none => Main.runBatch args none
  | _ => Main.runBatch args none
