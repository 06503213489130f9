import ScriptEngine.Compiler
import ScriptEngine.Machine.State
import ScriptEngine.Operator

/-!
# The base library

The functions that every script finds as globals: those of the host, which only see their arguments
and the store, and the core functions.
-/

namespace ScriptEngine.Library

/-- The table that a function was given as an argument. -/
def tableArgument (function : String) (args : List Value) (position : Nat) : HostAction Nat := do
  match args[position - 1]? with
  | some (.table id) => pure id
  | got => throw (.expected function position "table" got)

/-- Prints the arguments with tabs between them and a line break after them. -/
def print (args : List Value) : HostAction (List Value) := do
  modify fun s => { s with output := s.output ++ Value.tabbed args ++ "\n" }
  pure []

def type (args : List Value) : HostAction (List Value) := do
  match args with
  | v :: _ => pure [.string v.typeName]
  | [] => throw (.expected "type" 1 "value" none)

def tostring (args : List Value) : HostAction (List Value) :=
  pure [.string (Value.argument args 1).text]

/-- The number that a string denotes in a base from 2 to 36. -/
def inBase (base : Float) (v : Value) : Except Fault (Option Float) :=
  if 2.0 ≤ base ∧ base ≤ 36.0 then
    match v with
    | .string s => .ok ((Number.signed? (Number.truncate base).toNat (Text.trim s.toList)).map Float.ofInt)
    | _ => .error (.expected "tonumber" 1 "string" (some v))
  else .error (.argument "tonumber" 2 "base out of range")

def tonumber (args : List Value) : HostAction (List Value) := do
  let v := Value.argument args 1
  let n ← match Value.argument args 2 with
    | .nil => pure v.coerce?
    | .number base => MonadExcept.ofExcept (inBase base v)
    | other => throw (.expected "tonumber" 2 "number" (some other))
  pure [(n.map Value.number).getD .nil]

/-- Gives its arguments back if the first is truthy; otherwise raises the second. -/
def assert (args : List Value) : HostAction (List Value) := do
  if (Value.argument args 1).isTruthy then pure args
  else match Value.argument args 2 with
    | .nil => throw (.raised (.string "assertion failed!"))
    | message => throw (.raised message)

def error (args : List Value) : HostAction (List Value) := throw (.raised (Value.argument args 1))

/-- How many of `count` arguments come before those that index `n` selects; a negative index counts
from the end. -/
def selectStart (count : Nat) (n : Int) : Except Fault Nat :=
  if n = 0 ∨ (n < 0 ∧ count < n.natAbs) then .error (.argument "select" 1 "index out of range")
  else if n < 0 then .ok (count - n.natAbs)
  else .ok (min (n.toNat - 1) count)

/-- The number of the other arguments, or those of them from an index on. -/
def select (args : List Value) : HostAction (List Value) := do
  let rest := args.drop 1
  match Value.argument args 1 with
  | .string "#" => pure [.number (Float.ofNat rest.length)]
  | v =>
    match v.coerce? with
    | none => throw (.expected "select" 1 "number" (some v))
    | some n =>
      let start ← MonadExcept.ofExcept (selectStart rest.length (Number.toInt64 n))
      pure (rest.drop start)

def rawget (args : List Value) : HostAction (List Value) := do
  let id ← tableArgument "rawget" args 1
  pure [((← get).table id).get (Value.argument args 2)]

def rawset (args : List Value) : HostAction (List Value) := do
  let id ← tableArgument "rawset" args 1
  HostAction.write id (Value.argument args 2) (Value.argument args 3)
  pure [.table id]

def rawequal (args : List Value) : HostAction (List Value) :=
  pure [.boolean (Value.argument args 1 == Value.argument args 2)]

def setmetatable (args : List Value) : HostAction (List Value) := do
  let id ← tableArgument "setmetatable" args 1
  let metatable ← match args[1]? with
    | some (Value.table parent) => pure (some parent)
    | some .nil => pure none
    | got => throw (.expected "setmetatable" 2 "nil or table" got)
  modify (·.setMetatable id metatable)
  pure [.table id]

def getmetatable (args : List Value) : HostAction (List Value) := do
  match (← get).metatable? (Value.argument args 1) with
  | some id => pure [.table id]
  | none => pure [.nil]

def next (args : List Value) : HostAction (List Value) := do
  let id ← tableArgument "next" args 1
  match ← MonadExcept.ofExcept (((← get).table id).next (Value.argument args 2)) with
  | some (key, value) => pure [key, value]
  | none => pure [.nil]

/-- The integers from `first` on, `count` of them. -/
def integersFrom (first : Int) (count : Nat) : List Int :=
  (List.range count).map fun (i : Nat) => first + i

/-- The signed 64-bit integer with the same bits as an unsigned one. -/
def asSigned (n : Nat) : Int := Int.bmod n 0x10000000000000000

/-- The values of a table at the integers from `first` to `last`, which must be fewer than `limit`. -/
def unpackRange (t : Table) (first last : Int) (limit : Nat) : Except Fault (List Value) :=
  if last < first then .ok []
  else if asSigned limit ≤ min (last - first) Number.greatestInt64 then
    .error (.runtime "too many results to unpack")
  else .ok ((integersFrom first ((last - first).toNat + 1)).map fun i => t.get (.number (Float.ofInt i)))

def unpack (limit : Nat) (args : List Value) : HostAction (List Value) := do
  let id ← tableArgument "unpack" args 1
  let t := (← get).table id
  let first := Number.toInt64 ((Value.argument args 2).number?.getD 1.0)
  let last := match Value.argument args 3 with
    | .number n => Number.toInt64 n
    | _ => t.length
  MonadExcept.ofExcept (unpackRange t first last limit)

/-- Compiles a text to a function, or says why it cannot be compiled. -/
def load (args : List Value) : HostAction (List Value) := do
  match args.head? with
  | some (.string text) =>
    match Compiler.compileSource text "load" with
    | .ok unit =>
      let id ← HostAction.newClosure ⟨unit, #[]⟩
      pure [.closure id]
    | .error fault => pure [.nil, .string fault.message]
  | got => throw (.expected "load" 1 "string" got)

/-- One round of a loop over a sequence: the next position and its value, through the prototype chain. -/
def ipairsIterator (chainDepth : Nat) (args : List Value) : HostAction (List Value) := do
  let id ← tableArgument "ipairs" args 1
  let i := (Value.argument args 2).number?.getD 0.0 + 1.0
  let v ← MonadExcept.ofExcept ((← get).lookup id (.number i) chainDepth)
  pure (if v.isNil then [.nil] else [.number i, v])

def ipairs (iterator : Value) (args : List Value) : HostAction (List Value) := do
  let id ← tableArgument "ipairs" args 1
  pure [iterator, .table id, .number 0.0]

def pairs (next : Value) (args : List Value) : HostAction (List Value) := do
  let id ← tableArgument "pairs" args 1
  pure [next, .table id, .nil]

def stringLength (args : List Value) : HostAction (List Value) := do
  match args.head? with
  | some (.string s) => pure [.number (Float.ofNat s.utf8ByteSize)]
  | got => throw (.expected "string.len" 1 "string" got)

/-- Makes a table of functions and gives it to a global. -/
def addLibrary (m : Machine) (name : String) (fields : List (String × Value)) : Machine :=
  let t := fields.foldl (fun (t : Table) (key, v) => t.setString key v) {}
  let (id, store) := m.store.newTable
  { m with store := store.setTable id t }.setGlobal name (.table id)

/-- The functions of the host that need no other one. -/
def plainFunctions (config : Config) : List HostFunction :=
  [⟨"print", print⟩, ⟨"type", type⟩, ⟨"tostring", tostring⟩, ⟨"tonumber", tonumber⟩,
   ⟨"assert", assert⟩, ⟨"error", error⟩, ⟨"select", select⟩, ⟨"rawget", rawget⟩,
   ⟨"rawset", rawset⟩, ⟨"rawequal", rawequal⟩, ⟨"setmetatable", setmetatable⟩,
   ⟨"getmetatable", getmetatable⟩, ⟨"next", next⟩, ⟨"load", load⟩,
   ⟨"unpack", unpack config.maxStack⟩]

/-- A machine with the base library. -/
def machine (config : Config) : Machine :=
  let m := (plainFunctions config).foldl Machine.register { config }
  let (iterator, m) := m.addHost ⟨"ipairs_iterator", ipairsIterator config.maxChainDepth⟩
  let m := m.register ⟨"ipairs", ipairs iterator⟩
  let m := m.register ⟨"pairs", pairs (m.global "next")⟩
  let m := m.setGlobal "pcall" (.core .pcall)
  let m := m.setGlobal "dostring" (.core .dostring)
  let m := addLibrary m "coroutine"
    [("create", .core .create), ("resume", .core .resume), ("yield", .core .yield),
     ("status", .core .status)]
  let (stringLength, m) := m.addHost ⟨"string.len", stringLength⟩
  addLibrary m "string" [("len", stringLength)]

end ScriptEngine.Library
