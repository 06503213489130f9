import ScriptEngine.Ast
import ScriptEngine.CodeUnit.Builder

/-!
# Emitting code with known depths

While a function body is compiled, the depth of the stack and of the closure list at the next
instruction is known at every point: `emit` applies each instruction's static effect. A local variable
is a stack slot whose cell also stands in the closure list, where nested functions find it.
-/

namespace ScriptEngine.Compiler

/-- A live local: its slot above the frame's base and its position in the closure list. -/
structure Local where
  name : String
  slot : Nat
  closurePos : Nat

/-- What was live at some point. -/
structure Scope where
  /-- The locals, the latest first. -/
  locals : List Local
  depth : Nat
  closed : Nat

/-- Where `break` goes, and what is live there. -/
structure LoopExit where
  label : Nat
  scope : Scope

/-- How many slots an expression must leave behind. -/
inductive Arity where
  | fixed (n : Nat)
  /-- One slot, which may hold a multi-value. -/
  | multi

/-- Where a name leads. -/
inductive Var where
  | slot (slot : Nat)
  | upvalue (pos : Nat)
  | global

/-- A function body under compilation. -/
structure State where
  source : String
  name : String
  id : Nat
  /-- The next id that no function of the chunk has yet. -/
  nextId : Nat
  builder : Builder
  /-- The live locals, the latest first. -/
  locals : List Local
  /-- The names visible from enclosing functions with their closure positions, the innermost first. -/
  enclosing : List (String × Nat)
  /-- Stack slots above the frame's base, the argument slot included. -/
  depth : Nat
  /-- Entries of the closure list, inherited ones included. -/
  closed : Nat
  /-- Inherited entries of the closure list. -/
  upvalueCount : Nat
  /-- The line of the next instruction. -/
  line : Nat
  deriving Inhabited

/-- A chunk before its first instruction. -/
def State.root (source : String) : State where
  source
  name := "main chunk"
  id := 0
  nextId := 1
  builder := { isVararg := true }
  locals := []
  enclosing := []
  depth := 1
  closed := 0
  upvalueCount := 0
  line := 1

/-- A function nested in `s` before its first instruction. -/
def State.child (s : State) (name : String) (id line paramCount : Nat) (isVararg : Bool) : State where
  source := s.source
  name
  id
  nextId := s.nextId
  builder := { paramCount, isVararg }
  locals := []
  enclosing := s.locals.map (fun l => (l.name, l.closurePos)) ++ s.enclosing
  depth := 1
  closed := s.closed
  upvalueCount := s.closed
  line

end Compiler

abbrev Compiler := StateT Compiler.State (Except CompileError)

namespace Compiler

/-- The name of a variable that a script never declared leads to a global. -/
def State.resolve (s : State) (name : String) : Var :=
  match s.locals.find? (·.name == name) with
  | some l => .slot l.slot
  | none =>
    match s.enclosing.find? (·.1 == name) with
    | some (_, pos) => .upvalue pos
    | none => .global

/-- Applies an instruction's static effect to the known depths. -/
def apply (op : Opcode) (a b : Nat) (ins : Instruction) : Compiler Unit := do
  let s ← get
  let depth := (s.depth : Int) + Instruction.stackEffect op a b
  let closed := (s.closed : Int) + Instruction.closedEffect op a
  if depth < 1 ∨ closed < s.upvalueCount then throw (.unbalanced ins s.name)
  else set { s with depth := depth.toNat, closed := closed.toNat }

/-- Emits an instruction whose operands must fit their fields. -/
def emit (op : Opcode) (a b : Nat) : Compiler Unit := do
  if 65535 < a then throw (.operand a op)
  if 255 < b then throw (.operand b op)
  let ins := Instruction.make op a.toUInt16 b.toUInt8
  apply op a b ins
  modify fun s => { s with builder := s.builder.emit ins s.line }

def emitJump (op : Opcode) (peek : Bool) (label : Nat) : Compiler Unit := do
  let b := if peek then 1 else 0
  apply op 0 b (.make op 0 (if peek then 1 else 0))
  modify fun s => { s with builder := s.builder.emitJump op peek label s.line }

def newLabel : Compiler Nat :=
  modifyGet fun s =>
    let (label, builder) := s.builder.newLabel
    (label, { s with builder })

def placeLabel (label : Nat) : Compiler Unit :=
  modify fun s => { s with builder := s.builder.placeLabel label }

def setLine (line : Nat) : Compiler Unit := modify fun s => { s with line }

def addConstant (v : Value) : Compiler Nat := do
  let s ← get
  let (i, builder) ← s.builder.addConstant v
  set { s with builder }
  pure i

def loadConstant (v : Value) : Compiler Unit := do
  let i ← addConstant v
  emit .loadK i 0

def loadNil : Nat → Compiler Unit
  | 0 => pure ()
  | n + 1 => do
    loadConstant .nil
    loadNil n

/-- Drops the top `n` slots. -/
def pop (n : Nat) : Compiler Unit := if n = 0 then pure () else emit .popStack n 0

/-- Pushes a copy of the value in a slot. -/
def getSlot (slot : Nat) : Compiler Unit := do emit .getStack ((← get).depth - slot) 0

/-- Pops the top value into a slot. -/
def putSlot (slot : Nat) : Compiler Unit := do emit .putStack ((← get).depth - slot) 0

def scope : Compiler Scope := do
  let s ← get
  pure ⟨s.locals, s.depth, s.closed⟩

/-- The locals of the top slots, which have just been closed over, put in front of `locals`. -/
def bind (names : List String) (slot closurePos : Nat) (locals : List Local) : List Local :=
  match names with
  | [] => locals
  | name :: rest => bind rest (slot + 1) (closurePos + 1) (⟨name, slot, closurePos⟩ :: locals)

/-- Closes over the top slots and names them. -/
def bindLocals (names : List String) : Compiler Unit := do
  emit .closeVars names.length 0
  modify fun s => { s with
    locals := bind names (s.depth - names.length) (s.closed - names.length) s.locals }

/-- Releases what is live here and not at `outer`, without forgetting the names. -/
def release (outer : Scope) : Compiler Unit := do
  let s ← get
  if outer.closed < s.closed then emit .popClosed (s.closed - outer.closed) 0
  pop (s.depth - outer.depth)

/-- Releases what is live here and not at `outer`. -/
def closeScope (outer : Scope) : Compiler Unit := do
  release outer
  modify fun s => { s with locals := outer.locals }

/-- Runs `action` in a scope of its own. -/
def inScope (action : Compiler Unit) : Compiler Unit := do
  let outer ← scope
  action
  closeScope outer

/-- Runs `action` for code after which control goes elsewhere: the depths known before it are those of
the code that follows. -/
def leaving (action : Compiler Unit) : Compiler Unit := do
  let s ← get
  action
  modify fun t => { t with depth := s.depth, closed := s.closed }

/-- Releases what is live here and not at `outer`, and jumps. -/
def jumpOut (outer : Scope) (label : Nat) : Compiler Unit :=
  leaving do
    release outer
    emitJump .jmp false label

/-- Pushes the value of a variable. -/
def readVar (name : String) : Compiler Unit := do
  match (← get).resolve name with
  | .slot slot => getSlot slot
  | .upvalue pos => emit .getUpval pos 0
  | .global =>
    let i ← addConstant (.string name)
    emit .getGlobal i 0

/-- Pops the top value into a variable. -/
def writeVar (name : String) : Compiler Unit := do
  match (← get).resolve name with
  | .slot slot => putSlot slot
  | .upvalue pos => emit .putUpval pos 0
  | .global =>
    let i ← addConstant (.string name)
    emit .putGlobal i 0

/-- Expands the multi-value on top to the wanted number of slots. -/
def adjustMulti : Arity → Compiler Unit
  | .multi => pure ()
  | .fixed n => emit .popVarArgs n 1

/-- Calls with the given number of argument slots on top of the callee. -/
def finishCall (args : Nat) (arity : Arity) : Compiler Unit := do
  match arity with
  | .fixed n =>
    if 1 ≤ n ∧ n ≤ 255 then emit .call args n
    else
      emit .call args 0
      adjustMulti arity
  | .multi => emit .call args 0

/-- Turns the one value on top into the wanted number of slots. -/
def adjustSingle : Arity → Compiler Unit
  | .multi => pure ()
  | .fixed 0 => pop 1
  | .fixed (n + 1) => loadNil n

end Compiler

end ScriptEngine
