import ScriptEngine.Engine
import ScriptEngine.Report
import ScriptEngine.Text.Cluster

/-!
# The interactive session

Each line is added to what is pending and tried first as an expression, whose values are shown, then as
statements. If the text ends too early the session waits for more lines.
-/

namespace ScriptEngine

/-- Whether `needle` stands somewhere in a text. -/
def occursIn (needle : List Char) : List Char → Bool
  | [] => needle.isEmpty
  | c :: cs => needle.isPrefixOf (c :: cs) || occursIn needle cs

/-- Whether a fault says that the text ended before the program did. -/
def Fault.isIncomplete (fault : Fault) : Bool :=
  occursIn "got Eof".toList fault.message.toList ||
    occursIn "unfinished long".toList fault.message.toList

structure Repl where
  engine : Engine
  /-- The lines of a program that is not complete yet. -/
  pending : String := ""

namespace Repl

/-- What is shown when a session starts. -/
def banner : String := "lamn 0.1.0  (type 'exit' or Ctrl-D to quit)"

/-- Compiles a text as an expression or, failing that, as statements. -/
def compile (text : String) : Except Fault CodeUnit :=
  match Compiler.compileSource ("return " ++ text) "stdin" with
  | .ok unit => .ok unit
  | .error _ => Compiler.compileSource text "stdin"

/-- Whether a line ends the session. -/
def isExit (r : Repl) (line : String) : Bool :=
  r.pending.isEmpty && Text.trim line.toList == "exit".toList

/-- Runs a unit and shows its results or its fault; what it prints comes first. -/
def execute (r : Repl) (steps : Nat) (unit : CodeUnit) (report : Report) : Repl × Report :=
  match r.engine.execute steps unit [] with
  | none => (r, report)
  | some (result, engine) =>
    let (printed, engine) := engine.takeOutput
    let report := report.write printed
    let report := match result with
      | .ok [] => report
      | .ok values => report.writeLine (Value.tabbed values)
      | .error fault => report.complain fault.message
    ({ engine }, report)

/-- Takes a line that does not end the session. -/
def feed (r : Repl) (steps : Nat) (line : String) (report : Report) : Repl × Report :=
  let text := if r.pending.isEmpty then line else r.pending ++ "\n" ++ line
  match compile text with
  | .ok unit => execute { r with pending := "" } steps unit report
  | .error fault =>
    if fault.isIncomplete then ({ r with pending := text }, report)
    else ({ r with pending := "" }, report.complain fault.message)

/-- The number of bytes that a text takes. -/
def byteCount (cs : List Char) : Nat := cs.foldl (fun n c => n + c.utf8Size) 0

/-- A text without its first characters, as many as fit into `bytes` bytes. -/
def dropBytes (bytes : Nat) : List Char → List Char
  | [] => []
  | c :: rest => if c.utf8Size ≤ bytes then dropBytes (bytes - c.utf8Size) rest else c :: rest

/-- A line as it was meant, from its clusters: a backspace takes back the cluster before it. `kept`
holds the characters so far, the last one first, and `sizes` the bytes of their clusters. A size has
room for one byte only, so of a cluster of 256 bytes or more just the remainder is taken back. -/
def applyBackspaces (kept : List Char) (sizes : List UInt8) : List (List Char) → List Char
  | [] => kept.reverse
  | ['\x08'] :: rest =>
    match sizes with
    | [] => applyBackspaces kept [] rest
    | size :: earlier => applyBackspaces (dropBytes size.toNat kept) earlier rest
  | cluster :: rest =>
    applyBackspaces (cluster.reverse ++ kept) (UInt8.ofNat (byteCount cluster) :: sizes) rest

/-- The lines of an input, without their line breaks. -/
def lines (input : String) : List String :=
  let strip (line : String) : String :=
    if line.endsWith "\r" then (line.dropEnd 1).toString else line
  let raw := match (input.splitOn "\n").reverse with
    | [] => []
    | last :: whole => whole.reverse.map strip ++ (if last.isEmpty then [] else [last])
  raw.map fun line => String.ofList (applyBackspaces [] [] (Text.clusters line.toList))

/-- What is shown when the input ends. -/
def finish (r : Repl) (report : Report) : Report :=
  let report := if r.pending.isEmpty then report else report.complain "<incomplete input>"
  report.writeLine ""

/-- A session over all lines of an input. -/
def feedAll (r : Repl) (steps : Nat) (report : Report) : List String → Report
  | [] => r.finish report
  | line :: rest =>
    if r.isExit line then report
    else
      let (r, report) := r.feed steps line report
      feedAll r steps report rest

end Repl

end ScriptEngine
