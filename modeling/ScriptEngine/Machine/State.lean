import Std.Data.HashMap
import ScriptEngine.Machine.Thread

/-!
# The machine's state

The machine holds the globals, the functions of the host, the store and all threads. One thread runs;
the threads that resumed it, directly or through others, wait.
-/

namespace ScriptEngine

/-- What a function of the host does: it may change the store, and it has a result or a fault. -/
abbrev HostAction := ExceptT Fault (StateM Store)

namespace HostAction

def newTable : HostAction Nat := modifyGet Store.newTable

def newClosure (c : Closure) : HostAction Nat := modifyGet (·.newClosure c)

/-- Writes into a table; what cannot be a key is refused and changes nothing. -/
def write (id : Nat) (key value : Value) : HostAction Unit := do
  let k ← MonadExcept.ofExcept (Key.ofValue key)
  modify (·.assign id k key value)

end HostAction

structure HostFunction where
  name : String
  run : List Value → HostAction (List Value)

structure Machine where
  config : Config
  globals : Std.HashMap String Value := {}
  hosts : Array HostFunction := #[]
  store : Store := {}
  /-- The threads by their ids; the program runs on thread 0. -/
  threads : Array Thread := #[{}]
  /-- The thread that runs. -/
  running : Nat := 0
  /-- The threads that wait for a coroutine they resumed, the latest first. -/
  waiting : List Nat := []

/-- Actions of the machine. A fault keeps the state reached so far. -/
abbrev Exec := EStateM Fault Machine

namespace Machine

def thread (m : Machine) (id : Nat) : Thread := (m.threads[id]?).getD {}

def modifyThread (m : Machine) (id : Nat) (f : Thread → Thread) : Machine :=
  { m with threads := m.threads.modify id f }

/-- The thread that runs. -/
def current (m : Machine) : Thread := m.thread m.running

def modifyCurrent (m : Machine) (f : Thread → Thread) : Machine := m.modifyThread m.running f

/-- The value of a global, or `nil`. -/
def global (m : Machine) (name : String) : Value := m.globals.getD name .nil

/-- Gives a global a value; `nil` removes it. -/
def setGlobal (m : Machine) (name : String) (v : Value) : Machine :=
  { m with globals := if v.isNil then m.globals.erase name else m.globals.insert name v }

/-- Adds a function of the host; the value stands for it alone. -/
def addHost (m : Machine) (f : HostFunction) : Value × Machine :=
  (.host m.hosts.size f.name, { m with hosts := m.hosts.push f })

/-- Adds a function of the host as a global. -/
def register (m : Machine) (f : HostFunction) : Machine :=
  let (v, m) := m.addHost f
  m.setGlobal f.name v

/-- Pushes a value on a thread's stack, in a fresh cell. -/
def pushOn (m : Machine) (id : Nat) (v : Value) : Machine :=
  let (cell, store) := m.store.newCell v
  { m with store, threads := m.threads.modify id fun t => { t with stack := t.stack.push cell } }

def push (m : Machine) (v : Value) : Machine := m.pushOn m.running v

/-- Pushes results for someone who wants `want` of them: that many values, or one multi-value if
`want` is 0. -/
def pushResultsOn (m : Machine) (id want : Nat) (vs : List Value) : Machine :=
  if want = 0 then m.pushOn id (.multi vs)
  else (Value.adjust want vs).foldl (fun m v => m.pushOn id v) m

def pushResults (m : Machine) (want : Nat) (vs : List Value) : Machine :=
  m.pushResultsOn m.running want vs

/-- Hands values to the resume or yield that a thread waits in, which ends the protected calls around
it. -/
def deliver (m : Machine) (id : Nat) (vs : List Value) : Machine :=
  let t := m.thread id
  let m := m.modifyThread id fun t =>
    { t with handlers := t.handlers.drop t.awaitingProtections, awaitingProtections := 0 }
  m.pushResultsOn id t.awaiting (List.replicate t.awaitingProtections (.boolean true) ++ vs)

end Machine

namespace Exec

/-- Pops the top value; an empty stack gives `nil`. -/
def pop : Exec Value := do
  let m ← get
  let v := match m.current.stack.back? with
    | some cell => m.store.cell cell
    | none => .nil
  modify (·.modifyCurrent fun t => { t with stack := t.stack.pop })
  pure v

/-- Pops `n` slots and gives their values, the oldest first, with multi-values expanded. -/
def popSpread (n : Nat) : Exec (List Value) := do
  let m ← get
  let stack := m.current.stack
  let start := stack.size - n
  let vs := (stack.extract start stack.size).toList.flatMap fun cell => (m.store.cell cell).spread
  modify (·.modifyCurrent fun t => { t with stack := t.stack.shrink start })
  pure vs

def push (v : Value) : Exec Unit := modify (·.push v)

def pushResults (want : Nat) (vs : List Value) : Exec Unit := modify (·.pushResults want vs)

/-- The cell `offset` slots below the top. -/
def slot (offset : Nat) : Exec Nat := do
  match (← get).current.cell? offset with
  | some cell => pure cell
  | none => throw (.defect (.slot offset))

/-- The value `offset` slots below the top. -/
def peek (offset : Nat) : Exec Value := do
  let cell ← slot offset
  return (← get).store.cell cell

def setCell (cell : Nat) (v : Value) : Exec Unit :=
  modify fun m => { m with store := m.store.setCell cell v }

/-- Lets an action work on the store. The machine holds no store of its own meanwhile, so that the
action can change it in place. -/
def onStore {α : Type} (action : HostAction α) : Exec α := fun m =>
  let store := m.store
  let m := { m with store := {} }
  match action.run.run store with
  | (.ok a, store) => .ok a { m with store }
  | (.error fault, store) => .error fault { m with store }

/-- The result of a computation, or its fault. -/
def ofExcept {α : Type} : Except Fault α → Exec α
  | .ok a => pure a
  | .error fault => throw fault

end Exec

end ScriptEngine
