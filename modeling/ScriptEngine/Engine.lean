import ScriptEngine.Library
import ScriptEngine.Machine.Run

/-!
# The engine

What a host program uses: a machine with the base library, whose globals it can read and write, to
which it can add functions, and on which it can run chunks and call values. Running takes an allowance
of steps; a result of `none` says that it was used up.
-/

namespace ScriptEngine

structure Engine where
  machine : Machine

namespace Engine

/-- The outcome of a call from the host: results or a fault, and the engine afterwards. -/
abbrev Outcome := Option (Except Fault (List Value) × Engine)

/-- A new engine with the base library. -/
def start (config : Config) : Engine := ⟨Library.machine config⟩

def getGlobal (e : Engine) (name : String) : Value := e.machine.global name

def putGlobal (e : Engine) (name : String) (v : Value) : Engine := ⟨e.machine.setGlobal name v⟩

def register (e : Engine) (f : HostFunction) : Engine := ⟨e.machine.register f⟩

/-- Calls a closure or a function of the host. -/
def call (e : Engine) (steps : Nat) (callee : Value) (args : List Value) : Outcome :=
  (e.machine.call steps callee args).map fun (result, m) => (result, ⟨m⟩)

/-- Runs a compiled chunk with the given arguments. -/
def execute (e : Engine) (steps : Nat) (unit : CodeUnit) (args : List Value) : Outcome :=
  (e.machine.execute steps unit args).map fun (result, m) => (result, ⟨m⟩)

/-- Compiles and runs a chunk. -/
def run (e : Engine) (steps : Nat) (text label : String) (args : List Value) : Outcome :=
  match Compiler.compileSource text label with
  | .ok unit => e.execute steps unit args
  | .error fault => some (.error fault, e)

/-- Takes what has been printed since the last time. -/
def takeOutput (e : Engine) : String × Engine :=
  (e.machine.store.output, ⟨{ e.machine with store := { e.machine.store with output := "" } }⟩)

end Engine

end ScriptEngine
