import ScriptEngine.Machine.Call
import ScriptEngine.Operator

/-!
# One instruction

`step` takes the next instruction of the running thread's innermost frame and performs it. It gives
results when the program's outermost call has returned.
-/

namespace ScriptEngine.Exec

/-- A constant of a unit. -/
def constant (u : CodeUnit) (i : Nat) : Exec Value :=
  match u.constants[i]? with
  | some v => pure v
  | none => throw (.defect (.constant i))

/-- The name of a global, which a constant holds. -/
def globalName (u : CodeUnit) (i : Nat) : Exec String := do
  match ← constant u i with
  | .string name => pure name
  | other => throw (.defect (.globalName ((← get).store.debugText other)))

/-- The cell of an upvalue. -/
def upvalue (c : Closure) (i : Nat) : Exec Nat :=
  match c.upvalues[i]? with
  | some cell => pure cell
  | none => throw (.defect (.upvalue i))

def jump (address : Nat) : Exec Unit :=
  modify (·.modifyCurrent (·.modifyFrame ({ · with ip := address })))

def arithmetic (op : Arithmetic) : Exec Unit := do
  let rhs ← pop
  let lhs ← pop
  match lhs, rhs with
  | .number x, .number y => push (.number (op.apply x y))
  | _, _ =>
    let got := if lhs.number?.isNone then lhs.typeName else rhs.typeName
    callMetamethod op.event lhs rhs (.arithmetic got)

def negate : Exec Unit := do
  match ← pop with
  | .number n => push (.number (-n))
  | v => callMetamethod "__unm" v v (.arithmetic v.typeName)

def concat : Exec Unit := do
  let rhs ← pop
  let lhs ← pop
  match lhs.concat? rhs with
  | some s => push (.string s)
  | none =>
    let got := if lhs.piece?.isSome then rhs.typeName else lhs.typeName
    callMetamethod "__concat" lhs rhs (.concat got)

def length : Exec Unit := do
  let v ← pop
  let m ← get
  let handler ← ofExcept (m.metamethod v "__len")
  if handler.isNil then
    match v with
    | .string s => push (.number (Float.ofNat s.utf8ByteSize))
    | .table id => push (.number (Float.ofNat (m.store.table id).length))
    | _ => throw (.length v.typeName)
  else call handler [v, v] 1

/-- A comparison. If a handler decides it, its first result counts as a truth value: at once if the
handler has finished, on its return if it has entered a frame. -/
def compare (test : Value → Value → Option Bool) (event : String) : Exec Unit := do
  let rhs ← pop
  let lhs ← pop
  match test lhs rhs with
  | some result => push (.boolean result)
  | none =>
    let m ← get
    let (running, frames) := (m.running, m.current.frames.length)
    callMetamethod event lhs rhs (.compare lhs.typeName rhs.typeName)
    let m ← get
    if m.running = running then
      if frames < m.current.frames.length then
        set (m.modifyCurrent (·.modifyFrame ({ · with isCondition := true })))
      else
        let result ← pop
        push (.boolean result.isTruthy)

/-- `target[key]` through the prototype chain; strings have the fields of the string library. -/
def index (target key : Value) : Exec Value := do
  let m ← get
  match target with
  | .table id => ofExcept (m.store.lookup id key m.config.maxChainDepth)
  | .string _ =>
    match m.global "string" with
    | .table id => ofExcept (m.store.lookup id key m.config.maxChainDepth)
    | _ => throw (.index "string")
  | _ => throw (.index target.typeName)

/-- Writes into a table itself. -/
def write (id : Nat) (key value : Value) : Exec Unit := onStore (HostAction.write id key value)

/-- Writes values under consecutive keys. -/
def writeFrom (id : Nat) (start : Float) (offset : Nat) : List Value → Exec Unit
  | [] => pure ()
  | v :: rest => do
    write id (.number (start + Float.ofNat offset)) v
    writeFrom id start (offset + 1) rest

/-- Stores a popped value; a multi-value under a number fills the keys from there on. -/
def putTable : Exec Unit := do
  let value ← pop
  let key ← pop
  match ← pop with
  | .table id =>
    match key, value with
    | .number start, .multi vs => writeFrom id start 0 vs
    | _, _ => write id key value.first
  | target => throw (.index target.typeName)

/-- Expands the multi-value on top into `count` values. Unless it is consumed, its slot keeps what was
not expanded. -/
def popVarArgs (count : Nat) (consume : Bool) : Exec Unit := do
  let values := (← peek 1).spread
  modify (·.modifyCurrent fun t => { t with stack := t.stack.pop })
  if !consume then push (.multi (values.drop count))
  (Value.adjust count values).forM push

/-- Turns a control slot of a numeric loop into a number. -/
def forControl (offset : Nat) (message : String) : Exec Unit := do
  let cell ← slot offset
  match ((← get).store.cell cell).coerce? with
  | some n => setCell cell (.number n)
  | none => throw (.forLoop message)

def forPrep : Exec Unit := do
  forControl 3 "initial value must be a number"
  forControl 2 "limit must be a number"
  forControl 1 "step must be a number"
  if (← peek 1) == .number 0.0 then throw (.forLoop "step is zero")

def closeVars (count : Nat) : Exec Unit := do
  let size := (← get).current.stack.size
  if size < count then throw (.defect (.slot count))
  modify (·.modifyCurrent fun t =>
    { t with captures := t.captures ++ t.stack.extract (size - count) size })

/-- Pushes a closure of a nested unit over what the frame has closed over. -/
def makeClosure (u : CodeUnit) (id : Nat) : Exec Unit := do
  match u.child? id with
  | some child =>
    let m ← get
    let base := match m.current.frames with
      | frame :: _ => frame.captureBase
      | [] => 0
    let upvalues := m.current.captures.extract base m.current.captures.size
    let closure ← onStore (HostAction.newClosure ⟨child, upvalues⟩)
    push (.closure closure)
  | none => throw (.defect (.nestedUnit id))

/-- Leaves the innermost frame and hands its results to whoever waits for them. Results of the
program's outermost call come back. -/
def returnFrom (results : List Value) : Exec (Option (List Value)) := do
  let m ← get
  match m.current.frames with
  | [] => pure (some results)
  | frame :: callers =>
    let results := if frame.isCondition then [.boolean (results.headD .nil).isTruthy] else results
    let results := List.replicate frame.protections (.boolean true) ++ results
    let m := m.modifyCurrent fun t =>
      { t with
        frames := callers
        stack := t.stack.shrink frame.base
        captures := t.captures.shrink frame.captureBase
        handlers := t.handlers.drop frame.protections }
    if !callers.isEmpty then
      set (m.pushResults frame.want results)
      pure none
    else match m.waiting with
      | [] =>
        set m
        pure (some results)
      | resumer :: rest =>
        -- a coroutine that ends looks like a last yield to its resumer
        set ({ m with running := resumer, waiting := rest }.deliver resumer (.boolean true :: results))
        pure none

/-- Performs an instruction of `closure` other than a return. -/
def perform (closure : Closure) (op : Opcode) (a b : Nat) : Exec Unit := do
  match op with
  | .loadK =>
    let v ← constant closure.unit a
    push v
  | .getStack =>
    let v ← peek a
    push v
  | .putStack =>
    let cell ← slot a
    let v ← pop
    setCell cell v
  | .popStack => modify (·.modifyCurrent fun t => { t with stack := t.stack.shrink (t.stack.size - a) })
  | .getGlobal =>
    let name ← globalName closure.unit a
    push ((← get).global name)
  | .putGlobal =>
    let name ← globalName closure.unit a
    let v ← pop
    modify (·.setGlobal name v)
  | .add => arithmetic .add
  | .sub => arithmetic .sub
  | .mul => arithmetic .mul
  | .div => arithmetic .div
  | .mod => arithmetic .mod
  | .pow => arithmetic .pow
  | .neg => negate
  | .concat => concat
  | .len => length
  | .eq =>
    let rhs ← pop
    let lhs ← pop
    push (.boolean (lhs == rhs))
  | .not =>
    let v ← pop
    push (.boolean !v.isTruthy)
  | .and =>
    let rhs ← pop
    let lhs ← pop
    push (if lhs.isTruthy then rhs else lhs)
  | .or =>
    let rhs ← pop
    let lhs ← pop
    push (if lhs.isTruthy then lhs else rhs)
  | .less => compare Value.less? "__lt"
  | .lessEq => compare Value.lessEq? "__le"
  | .newTable =>
    let id ← onStore HostAction.newTable
    push (.table id)
  | .putTable => putTable
  | .getTable =>
    let key ← pop
    let target ← pop
    let v ← index target key
    push v
  | .call =>
    let args ← popSpread a
    let callee ← pop
    call callee args b
  | .jmp => jump a
  | .jmpTrue =>
    let v ← if b = 1 then peek 1 else pop
    if v.isTruthy then jump a
  | .popVarArgs => popVarArgs a (b = 1)
  | .forPrep => forPrep
  | .closeVars => closeVars a
  | .popClosed =>
    modify (·.modifyCurrent fun t => { t with captures := t.captures.shrink (t.captures.size - a) })
  | .closure => makeClosure closure.unit a
  | .getUpval =>
    let cell ← upvalue closure a
    push ((← get).store.cell cell)
  | .putUpval =>
    let v ← pop
    let cell ← upvalue closure a
    setCell cell v
  | .ret => pure ()

/-- Performs the next instruction. -/
def step : Exec (Option (List Value)) := do
  let m ← get
  match m.current.frames with
  | [] => throw (.defect .noFrame)
  | frame :: _ =>
    set (m.modifyCurrent (·.modifyFrame ({ · with ip := frame.ip + 1 })))
    match frame.closure.unit.code[frame.ip]? with
    | none => throw (.defect (.address frame.ip))
    | some ins =>
      match ins.opcode? with
      | none => throw (.defect (.instruction ins.word))
      | some .ret =>
        let results ← popSpread ins.a.toNat
        returnFrom results
      | some op =>
        perform frame.closure op ins.a.toNat ins.b.toNat
        pure none

end ScriptEngine.Exec
