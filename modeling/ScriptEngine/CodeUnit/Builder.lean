import ScriptEngine.Compiler.Error

/-!
# Building units

A builder collects the instructions of one unit. A jump is emitted with a label for its target, before
or after the label has been given a place, and `finish` fills in the addresses.
-/

namespace ScriptEngine

structure Builder where
  code : Array Instruction := #[]
  lines : Array Nat := #[]
  constants : Array Value := #[]
  /-- The nested units, in descending order of their ids. -/
  children : List CodeUnit := []
  paramCount : Nat := 0
  isVararg : Bool := false
  /-- The address of each label that has a place. -/
  labels : Array (Option Nat) := #[]
  /-- The addresses of emitted jumps, with their labels. -/
  pending : Array (Nat × Nat) := #[]
  deriving Inhabited

namespace Builder

/-- The greatest operand `a`, and so the greatest number of instructions in a unit. -/
def maxOperand : Nat := 65535

def emit (b : Builder) (ins : Instruction) (line : Nat) : Builder :=
  { b with code := b.code.push ins, lines := b.lines.push line }

/-- Emits a jump whose address is not known yet. -/
def emitJump (b : Builder) (op : Opcode) (peek : Bool) (label line : Nat) : Builder :=
  { b.emit (.make op 0 (if peek then 1 else 0)) line with
    pending := b.pending.push (b.code.size, label) }

/-- A label without a place. -/
def newLabel (b : Builder) : Nat × Builder :=
  (b.labels.size, { b with labels := b.labels.push none })

/-- Places a label before the next instruction. -/
def placeLabel (b : Builder) (label : Nat) : Builder :=
  { b with labels := b.labels.setIfInBounds label (some b.code.size) }

/-- The index of a constant, which is added if no equal one is there yet. -/
def addConstant (b : Builder) (v : Value) : Except CompileError (Nat × Builder) :=
  match b.constants.findIdx? (· == v) with
  | some i => .ok (i, b)
  | none =>
    if b.constants.size ≤ maxOperand then
      .ok (b.constants.size, { b with constants := b.constants.push v })
    else .error .tooManyConstants

/-- Adds a unit to units in descending order of their ids, in place of one that has its id. -/
def insertChild (u : CodeUnit) : List CodeUnit → List CodeUnit
  | [] => [u]
  | v :: rest =>
    if v.id < u.id then u :: v :: rest
    else if v.id = u.id then u :: rest
    else v :: insertChild u rest

def addChild (b : Builder) (u : CodeUnit) : Builder :=
  { b with children := insertChild u b.children }

/-- The address of a label. -/
def labelAddress? (b : Builder) (label : Nat) : Option Nat := (b.labels[label]?).join

/-- Fills in the address of a pending jump. -/
def resolve (b : Builder) (name : String) (code : Array Instruction) (jump : Nat × Nat) :
    Except CompileError (Array Instruction) :=
  match b.labelAddress? jump.2 with
  | some address => .ok (code.modify jump.1 fun ins => { ins with a := address.toUInt16 })
  | none => .error (.unresolvedLabel name)

/-- The finished unit. -/
def finish (b : Builder) (id : Nat) (name source : String) : Except CompileError CodeUnit :=
  if maxOperand < b.code.size then .error (.tooLarge name b.code.size)
  else do
    let code ← b.pending.foldlM (b.resolve name) b.code
    pure {
      id, name, source, code
      paramCount := b.paramCount
      isVararg := b.isVararg
      lines := b.lines
      constants := b.constants
      children := b.children.reverse }

end Builder

end ScriptEngine
