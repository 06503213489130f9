import ScriptEngine.CodeUnit.Listing
import ScriptEngine.Repl

/-!
# The command line

Chunks given as options and a script file run one after the other in one engine, or are listed instead
of run; the first failure ends the command. Without any of them an interactive session starts.
-/

namespace ScriptEngine.CommandLine

structure Options where
  /-- The chunks to run before the script. -/
  chunks : List String := []
  script : Option String := none
  /-- The arguments of the script. -/
  args : List String := []
  /-- Whether to list the compiled code instead of running it. -/
  disassemble : Bool := false
  config : Config := {}

/-- What the arguments ask for. -/
inductive Request where
  | version
  | run (options : Options)
  | invalid (problem : String)

/-- An option that takes a value. -/
inductive Setting where
  | chunk
  | maxCallDepth
  | maxStack

namespace Setting

/-- Gives an option its value. -/
def apply (s : Setting) (value : String) (o : Options) : Except String Options :=
  let limit (f : Nat → Config) : Except String Options :=
    match Number.unsigned? 10 value.toList with
    | some n => .ok { o with config := f n }
    | none => .error ("invalid value '" ++ value ++ "'")
  match s with
  | chunk => .ok { o with chunks := o.chunks ++ [value] }
  | maxCallDepth => limit fun n => { o.config with maxCallDepth := n }
  | maxStack => limit fun n => { o.config with maxStack := n }

/-- The option with the given long name. -/
def ofName? : String → Option Setting
  | "execute" => some chunk
  | "max-call-depth" => some maxCallDepth
  | "max-stack" => some maxStack
  | _ => none

end Setting

/-- A cluster of one-letter options after a dash. The last may be one that takes a value, with the
value right behind it or in the next argument; what comes back is whether the value is still to come. -/
def letters (o : Options) : List Char → Except Request (Options × Bool)
  | [] => .ok (o, false)
  | 'd' :: rest => letters { o with disassemble := true } rest
  | 'V' :: _ => .error .version
  | 'e' :: rest =>
    let value := match rest with
      | '=' :: value => value
      | value => value
    if rest.isEmpty then .ok (o, true)
    else .ok ({ o with chunks := o.chunks ++ [String.ofList value] }, false)
  | c :: _ => .error (.invalid ("unexpected argument '-" ++ c.toString ++ "' found"))

/-- The name and the value of a long option. -/
def splitLong (cs : List Char) : String × Option String :=
  let name := cs.takeWhile (· != '=')
  match cs.drop name.length with
  | _ :: value => (String.ofList name, some (String.ofList value))
  | [] => (String.ofList name, none)

/-- A positional argument: the script first; from its first argument on everything belongs to it. -/
def positional (o : Options) (arg : String) (rest : List String) : Options ⊕ Options :=
  match o.script with
  | none => .inl { o with script := some arg }
  | some _ => .inr { o with args := arg :: rest }

/-- Positional arguments only. -/
def positionals (o : Options) : List String → Options
  | [] => o
  | arg :: rest =>
    match positional o arg rest with
    | .inl o => positionals o rest
    | .inr o => o

/-- Whether an argument stands for an option and not for a value: a lone dash is a value. -/
def isOption (arg : String) : Bool := arg.startsWith "-" && arg != "-"

/-- Reads the arguments. `open?` is an option whose value is still to come. -/
def parseFrom (o : Options) (open? : Option Setting) : List String → Request
  | [] => if open?.isSome then .invalid "a value is required" else .run o
  | arg :: rest =>
    match open? with
    | some setting =>
      if isOption arg then .invalid "a value is required"
      else match setting.apply arg o with
        | .ok o => parseFrom o none rest
        | .error problem => .invalid problem
    | none =>
      match arg.toList with
      | ['-', '-'] => .run (positionals o rest)
      | '-' :: '-' :: long =>
        let (name, value) := splitLong long
        match name, value, Setting.ofName? name with
        | "version", none, _ => .version
        | "disassemble", none, _ => parseFrom { o with disassemble := true } none rest
        | _, some value, some setting =>
          match setting.apply value o with
          | .ok o => parseFrom o none rest
          | .error problem => .invalid problem
        | _, none, some setting => parseFrom o (some setting) rest
        | _, _, none => .invalid ("unexpected argument '--" ++ name ++ "' found")
      | '-' :: c :: more =>
        match letters o (c :: more) with
        | .ok (o, true) => parseFrom o (some .chunk) rest
        | .ok (o, false) => parseFrom o none rest
        | .error request => request
      | _ =>
        match positional o arg rest with
        | .inl o => parseFrom o none rest
        | .inr o => .run o

def parse (args : List String) : Request := parseFrom {} none args

/-- Lists or runs a chunk. The message of a failure comes back. -/
def process (o : Options) (steps : Nat) (text label : String) (args : List Value)
    (engine : Engine) (report : Report) : Option String × Engine × Report :=
  match Compiler.compileSource text label with
  | .error fault => (some fault.message, engine, report)
  | .ok unit =>
    if o.disassemble then (none, engine, report.write unit.listing)
    else match engine.execute steps unit args with
      | none => (none, engine, report)
      | some (result, engine) =>
        let (printed, engine) := engine.takeOutput
        let failure := match result with
          | .ok _ => none
          | .error fault => some fault.message
        (failure, engine, report.write printed)

/-- Runs the chunks given as options, numbered from `number` on, up to the first failure. -/
def runChunks (o : Options) (steps number : Nat) (engine : Engine) (report : Report) :
    List String → Option String × Engine × Report
  | [] => (none, engine, report)
  | text :: rest =>
    match process o steps text ("(command line " ++ toString number ++ ")") [] engine report with
    | (none, engine, report) => runChunks o steps (number + 1) engine report rest
    | failed => failed

/-- What is shown for a file that is not there. -/
def missing (path : String) : String :=
  "cannot read '" ++ path ++ "'\n\nCaused by:\n    No such file or directory (os error 2)"

/-- Runs chunks and script; `read` gives the text of a file. -/
def batch (o : Options) (steps : Nat) (read : String → Option String) : Option String × Report :=
  match runChunks o steps 1 (.start o.config) {} o.chunks with
  | (some failure, _, report) => (some failure, report)
  | (none, engine, report) =>
    match o.script with
    | none => (none, report)
    | some path =>
      match read path with
      | none => (some (missing path), report)
      | some text =>
        let (failure, _, report) :=
          process o steps text path (o.args.map Value.string) engine report
        (failure, report)

/-- Whether the arguments ask for an interactive session. -/
def Options.isInteractive (o : Options) : Bool := o.script.isNone && o.chunks.isEmpty

/-- The whole command: its exit code and what it writes. -/
def run (steps : Nat) (args : List String) (read : String → Option String) (input : String) :
    Nat × Report :=
  match parse args with
  | .version => (0, ({} : Report).writeLine "lamn 0.1.0")
  | .invalid problem => (2, ({} : Report).complain ("error: " ++ problem))
  | .run o =>
    if o.isInteractive then
      let session : Repl := { engine := .start o.config }
      (0, session.feedAll steps (({} : Report).writeLine Repl.banner) (Repl.lines input))
    else
      match batch o steps read with
      | (none, report) => (0, report)
      | (some failure, report) => (1, report.complain ("Error: " ++ failure))

end ScriptEngine.CommandLine
