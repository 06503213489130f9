import ScriptEngine.Compiler
import ScriptEngine.Machine.State

/-!
# Calls

A call of a closure pushes a frame and goes on there; a call of a host function finishes at once; a
call of a core function acts on the machine: it starts, resumes or leaves a coroutine, compiles a
text, or protects another call.

A protected call notes the state it starts from. If its callee is a core function that finishes later,
the `true` it owes is paid by whatever finishes the callee: the return of the frame it entered, or the
delivery to the thread it blocked.
-/

namespace ScriptEngine

namespace Machine

/-- The handler of an event that the metatable of a value names, or `nil`. -/
def metamethod (m : Machine) (v : Value) (event : String) : Except Fault Value :=
  match m.store.metatable? v with
  | some id => m.store.lookup id (.string event) m.config.maxChainDepth
  | none => .ok .nil

/-- The function that a call runs and its arguments: a table gives way to its call handler and becomes
the first argument. -/
def callTarget (m : Machine) (callee : Value) (args : List Value) : Except Fault (Value × List Value) :=
  match callee with
  | .table _ => do
    let handler ← m.metamethod callee "__call"
    match handler with
    | .nil | .table _ => .error (.call "table")
    | _ => .ok (handler, callee :: args)
  | _ => .ok (callee, args)

/-- What a coroutine is doing. -/
def status (m : Machine) (id : Nat) : String :=
  if m.running = id then "running"
  else if m.waiting.contains id then "normal"
  else if (m.thread id).isDead then "dead"
  else "suspended"

/-- Ends a protected call of a core function that was called for one multi-value: at once if its
result is there, otherwise by leaving the rest to the frame it entered or to the thread it blocked.
`frames` and `handlers` are the caller's counts before the call. -/
def settle (m : Machine) (caller frames handlers want : Nat) : Exec Unit := do
  let m := if handlers < (m.thread caller).handlers.length then
      -- a nested protected call is still under way
      m.modifyThread caller (·.modifyHandler fun h => { h with wraps := h.wraps + 1 })
    else m
  if m.running ≠ caller then
    set (m.modifyThread caller fun t =>
      { t with awaiting := want, awaitingProtections := t.awaitingProtections + 1 })
  else if frames < (m.thread caller).frames.length then
    set (m.modifyThread caller (·.modifyFrame fun f =>
      { f with want, protections := f.protections + 1 }))
  else
    set m
    let results ← Exec.popSpread 1
    modify (·.modifyCurrent fun t => { t with handlers := t.handlers.drop 1 })
    Exec.pushResults want (.boolean true :: results)

end Machine

namespace Exec

/-- Pushes a frame for a closure; its argument list becomes the frame's first slot. -/
def enter (closure : Closure) (args : List Value) (want protections : Nat) : Exec Unit := do
  let m ← get
  let t := m.current
  if m.config.maxCallDepth ≤ t.frames.length ∨ m.config.maxStack ≤ t.stack.size then
    throw .stackOverflow
  let frame : Frame :=
    { closure, ip := 0, base := t.stack.size, captureBase := t.captures.size, want, protections }
  set (m.modifyCurrent fun t =>
    { t with captures := t.captures ++ closure.upvalues, frames := frame :: t.frames })
  push (.multi args)

/-- Runs a function of the host. -/
def callHost (id : Nat) (args : List Value) : Exec (List Value) := do
  match (← get).hosts[id]? with
  | some f => onStore (f.run args)
  | none => pure []

/-- The thread that a coroutine function was given. -/
def threadArgument (function : String) (args : List Value) : Exec Nat := do
  match args.head? with
  | some (.thread id) => pure id
  | got => throw (.expected function 1 "coroutine" got)

def create (args : List Value) (want : Nat) : Exec Unit := do
  let m ← get
  let closure := match args.head? with
    | some (.closure id) => m.store.closures[id]?
    | _ => none
  match closure with
  | some closure =>
    set { m with threads := m.threads.push (.ofClosure closure) }
    pushResults want [.thread m.threads.size]
  | none => throw (.argument "coroutine.create" 1 "function expected")

def resume (args : List Value) (want : Nat) : Exec Unit := do
  let id ← threadArgument "coroutine.resume" args
  let m ← get
  if m.running = id ∨ m.waiting.contains id then
    throw (.coroutine "cannot resume non-suspended coroutine")
  else if m.threads.size ≤ id then throw (.runtime ("no thread " ++ toString id))
  else if (m.thread id).isDead then pushResults want [.boolean false]
  else
    let m := m.modifyCurrent fun t => { t with awaiting := want }
    let m := m.deliver id (args.drop 1)
    set { m with running := id, waiting := m.running :: m.waiting }

def yield (args : List Value) (want : Nat) : Exec Unit := do
  let m ← get
  match m.waiting with
  | [] => throw (.coroutine "attempt to yield from outside a coroutine")
  | resumer :: rest =>
    let m := m.modifyCurrent fun t => { t with awaiting := want }
    set ({ m with running := resumer, waiting := rest }.deliver resumer (.boolean true :: args))

/-- Compiles a text and calls it in place. -/
def dostring (args : List Value) (want : Nat) : Exec Unit := do
  match args.head? with
  | some (.string text) =>
    let unit ← ofExcept (Compiler.compileSource text "dostring")
    enter ⟨unit, #[]⟩ [] want 0
  | got => throw (.expected "dostring" 1 "string" got)

/-- Calls a core function; `protectedCall` is what it does if it is the protected call. -/
def callCoreWith (protectedCall : Exec Unit) (f : CoreFunction) (args : List Value) (want : Nat) :
    Exec Unit :=
  match f with
  | .pcall => protectedCall
  | .create => create args want
  | .resume => resume args want
  | .yield => yield args want
  | .status => do
    let id ← threadArgument "coroutine.status" args
    pushResults want [.string ((← get).status id)]
  | .dostring => dostring args want

/-- Calls a core function, given as `action` for one multi-value, under protection. -/
def guarded (want : Nat) (action : Exec Unit) : Exec Unit := do
  modify (·.modifyCurrent (·.pushHandler want))
  let m ← get
  let caller := m.running
  let (frames, handlers) := (m.current.frames.length, m.current.handlers.length)
  action
  (← get).settle caller frames handlers want

/-- Pushes the results of a protected call that failed. -/
def pushFailure (want : Nat) (fault : Fault) : Exec Unit :=
  pushResults want [.boolean false, fault.toValue]

/-- Calls the first argument with the others so that a fault in it becomes a result. A chain of
protected calls takes one argument for each. A table that hands its call back to the protected call
would do so without end, which counts as a stack overflow. -/
def pcall : List Value → Nat → Exec Unit
  | [], want => pushFailure want (.call Value.nil.typeName)
  | .core .pcall :: args, want => guarded want (pcall args 0)
  | callee :: rest, want => do
    match (← get).callTarget callee rest with
    | .error fault => pushFailure want fault
    | .ok (.closure id, args) =>
      match (← get).store.closures[id]? with
      | some closure =>
        modify (·.modifyCurrent (·.pushHandler want))
        enter closure args want 1
      | none => pushFailure want (.call "function")
    | .ok (.host id _, args) =>
      let m ← get
      match callHost id args m with
      | .ok results m =>
        set m
        pushResults want (.boolean true :: results)
      | .error fault m =>
        set m
        pushFailure want fault
    | .ok (.core f, args) => guarded want (callCoreWith (throw .stackOverflow) f args 0)
    | .ok (other, _) => pushFailure want (.call other.typeName)

def callCore (f : CoreFunction) (args : List Value) (want : Nat) : Exec Unit :=
  callCoreWith (pcall args want) f args want

/-- Calls a value; `want` results land on the stack once the call is over. -/
def call (callee : Value) (args : List Value) (want : Nat) : Exec Unit := do
  let (target, args) ← ofExcept ((← get).callTarget callee args)
  match target with
  | .closure id =>
    match (← get).store.closures[id]? with
    | some closure => enter closure args want 0
    | none => throw (.call "function")
  | .host id _ =>
    let results ← callHost id args
    pushResults want results
  | .core f => callCore f args want
  | other => throw (.call other.typeName)

/-- Calls the handler that either operand has for an event; `fault` if none has one. -/
def callMetamethod (event : String) (lhs rhs : Value) (fault : Fault) : Exec Unit := do
  let m ← get
  let first ← ofExcept (m.metamethod lhs event)
  let handler ← if first.isNil then ofExcept (m.metamethod rhs event) else pure first
  if handler.isNil then throw fault
  else call handler [lhs, rhs] 1

end Exec

end ScriptEngine
