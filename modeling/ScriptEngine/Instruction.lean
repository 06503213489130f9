import ScriptEngine.Text.Columns

/-!
# Instructions of the stack machine

An instruction is one 32-bit word: an opcode byte, a 16-bit operand `a` and an 8-bit operand `b`.
Stack operands count from the top, so `getStack` with operand 1 reads the top itself. `effect` is the
static account of what an instruction does to the depth of the stack and of the closure list; the
compiler and the verifier both rely on it.
-/

namespace ScriptEngine

inductive Opcode where
  /-- Push constant `a`. -/
  | loadK
  /-- Push a copy of the value `a` slots below the top. -/
  | getStack
  /-- Pop a value into the cell `a` slots below the old top. -/
  | putStack
  /-- Drop `a` slots. -/
  | popStack
  /-- Push the global named by constant `a`. -/
  | getGlobal
  /-- Pop a value into the global named by constant `a`. -/
  | putGlobal
  | add
  | sub
  | neg
  | mul
  | div
  | pow
  | concat
  | mod
  | len
  /-- Return `a` slots, multi-values among them expanded. -/
  | ret
  /-- Call with `a` argument slots and keep `b` results, or one multi-value if `b` is 0. -/
  | call
  /-- Jump to address `a`. -/
  | jmp
  /-- Pop the top, or only look at it if `b` is 1, and jump to `a` if it is truthy. -/
  | jmpTrue
  /-- Expand the multi-value on top into `a` values; it is consumed if `b` is 1. -/
  | popVarArgs
  /-- Turn the three control slots of a numeric loop into numbers. -/
  | forPrep
  /-- Append the cells of the top `a` slots to the closure list. -/
  | closeVars
  /-- Drop `a` entries from the closure list. -/
  | popClosed
  /-- Push a closure of nested unit `a` over the current closure list. -/
  | closure
  /-- Push the value of upvalue `a`. -/
  | getUpval
  /-- Pop a value into upvalue `a`. -/
  | putUpval
  | eq
  | not
  | and
  | or
  | lessEq
  | less
  | newTable
  /-- Pop value, key and table, and store in the table itself. -/
  | putTable
  /-- Pop key and table, and push what the prototype chain holds for the key. -/
  | getTable
  deriving DecidableEq

namespace Opcode

/-- The byte that stands for the opcode in an instruction word. -/
def byte : Opcode → UInt8
  | loadK => 0x00
  | getStack => 0x01
  | putStack => 0x02
  | popStack => 0x03
  | getGlobal => 0x04
  | putGlobal => 0x05
  | add => 0x10
  | sub => 0x11
  | neg => 0x12
  | mul => 0x13
  | div => 0x14
  | pow => 0x15
  | concat => 0x16
  | mod => 0x17
  | len => 0x18
  | ret => 0x20
  | call => 0x21
  | jmp => 0x22
  | jmpTrue => 0x23
  | popVarArgs => 0x24
  | forPrep => 0x25
  | closeVars => 0x30
  | popClosed => 0x31
  | closure => 0x32
  | getUpval => 0x33
  | putUpval => 0x34
  | eq => 0x40
  | not => 0x41
  | and => 0x42
  | or => 0x43
  | lessEq => 0x44
  | less => 0x45
  | newTable => 0x50
  | putTable => 0x51
  | getTable => 0x52

/-- The opcode that a byte stands for. -/
def ofByte? (b : UInt8) : Option Opcode :=
  match b.toNat with
  | 0x00 => some loadK
  | 0x01 => some getStack
  | 0x02 => some putStack
  | 0x03 => some popStack
  | 0x04 => some getGlobal
  | 0x05 => some putGlobal
  | 0x10 => some add
  | 0x11 => some sub
  | 0x12 => some neg
  | 0x13 => some mul
  | 0x14 => some div
  | 0x15 => some pow
  | 0x16 => some concat
  | 0x17 => some mod
  | 0x18 => some len
  | 0x20 => some ret
  | 0x21 => some call
  | 0x22 => some jmp
  | 0x23 => some jmpTrue
  | 0x24 => some popVarArgs
  | 0x25 => some forPrep
  | 0x30 => some closeVars
  | 0x31 => some popClosed
  | 0x32 => some closure
  | 0x33 => some getUpval
  | 0x34 => some putUpval
  | 0x40 => some eq
  | 0x41 => some not
  | 0x42 => some and
  | 0x43 => some or
  | 0x44 => some lessEq
  | 0x45 => some less
  | 0x50 => some newTable
  | 0x51 => some putTable
  | 0x52 => some getTable
  | _ => none

@[simp] theorem ofByte?_byte (op : Opcode) : ofByte? op.byte = some op := by
  cases op <;> rfl

/-- The name in listings. -/
def mnemonic : Opcode → String
  | loadK => "LOADK"
  | getStack => "GETSTACK"
  | putStack => "PUTSTACK"
  | popStack => "POPSTACK"
  | getGlobal => "GETGLOBAL"
  | putGlobal => "PUTGLOBAL"
  | add => "ADD"
  | sub => "SUB"
  | neg => "NEG"
  | mul => "MUL"
  | div => "DIV"
  | pow => "POW"
  | concat => "CONCAT"
  | mod => "MOD"
  | len => "LEN"
  | ret => "RET"
  | call => "CALL"
  | jmp => "JMP"
  | jmpTrue => "JMPTRUE"
  | popVarArgs => "POPVARGS"
  | forPrep => "FORPREP"
  | closeVars => "CLOSEVARS"
  | popClosed => "POPCLOSED"
  | closure => "CLOSURE"
  | getUpval => "GETUPVAL"
  | putUpval => "PUTUPVAL"
  | eq => "EQ"
  | not => "NOT"
  | and => "AND"
  | or => "OR"
  | lessEq => "LESSEQ"
  | less => "LESS"
  | newTable => "NEWTABLE"
  | putTable => "PUTTABLE"
  | getTable => "GETTABLE"

/-- The name in diagnostics. -/
def name : Opcode → String
  | loadK => "LoadK"
  | getStack => "GetStack"
  | putStack => "PutStack"
  | popStack => "PopStack"
  | getGlobal => "GetGlobal"
  | putGlobal => "PutGlobal"
  | add => "Add"
  | sub => "Sub"
  | neg => "Neg"
  | mul => "Mul"
  | div => "Div"
  | pow => "Pow"
  | concat => "Concat"
  | mod => "Mod"
  | len => "Len"
  | ret => "Ret"
  | call => "Call"
  | jmp => "Jmp"
  | jmpTrue => "JmpTrue"
  | popVarArgs => "PopVarArgs"
  | forPrep => "ForPrep"
  | closeVars => "CloseVars"
  | popClosed => "PopClosed"
  | closure => "Closure"
  | getUpval => "GetUpval"
  | putUpval => "PutUpval"
  | eq => "Eq"
  | not => "Not"
  | and => "And"
  | or => "Or"
  | lessEq => "LessEq"
  | less => "Less"
  | newTable => "NewTable"
  | putTable => "PutTable"
  | getTable => "GetTable"

/-- Whether operand `a` is a code address. -/
def isJump : Opcode → Bool
  | jmp | jmpTrue => true
  | _ => false

end Opcode

/-- An instruction word by its fields. The tag may be no opcode's byte: such a word is a value like any
other, and only running or verifying it fails. -/
structure Instruction where
  tag : UInt8
  a : UInt16
  b : UInt8
  deriving DecidableEq

/-- The net change of the stack depth and of the closure list's length. -/
structure Effect where
  stack : Int
  closed : Int
  deriving DecidableEq

namespace Instruction

def make (op : Opcode) (a : UInt16) (b : UInt8) : Instruction := ⟨op.byte, a, b⟩

/-- The fields of a 32-bit word. -/
def ofWord (w : UInt32) : Instruction := ⟨(w >>> 24).toUInt8, (w >>> 8).toUInt16, w.toUInt8⟩

/-- The 32-bit word with these fields. -/
def word (i : Instruction) : UInt32 := (i.tag.toUInt32 <<< 24) ||| (i.a.toUInt32 <<< 8) ||| i.b.toUInt32

def opcode? (i : Instruction) : Option Opcode := Opcode.ofByte? i.tag

@[simp] theorem opcode?_make (op : Opcode) (a : UInt16) (b : UInt8) :
    (make op a b).opcode? = some op := by
  simp [make, opcode?]

/-- The change of the stack depth made by `op` with operands `a` and `b`. -/
def stackEffect (op : Opcode) (a b : Nat) : Int :=
  match op with
  | .loadK | .getStack | .getGlobal | .closure | .getUpval | .newTable => 1
  | .putStack | .putGlobal | .putUpval => -1
  | .add | .sub | .mul | .div | .pow | .concat | .mod => -1
  | .eq | .and | .or | .lessEq | .less | .getTable => -1
  | .neg | .not | .len | .jmp | .forPrep | .closeVars | .popClosed => 0
  | .popStack | .ret => -(a : Int)
  | .putTable => -3
  -- callee and arguments give way to the results
  | .call => (if b = 0 then 1 else (b : Int)) - (a + 1)
  | .jmpTrue => if b = 1 then 0 else -1
  | .popVarArgs => (a : Int) - b

/-- The change of the closure list's length made by `op` with operand `a`. -/
def closedEffect (op : Opcode) (a : Nat) : Int :=
  match op with
  | .closeVars => a
  | .popClosed => -(a : Int)
  | _ => 0

/-- The static effect of a word, if its tag is an opcode's. -/
def effect? (i : Instruction) : Option Effect :=
  i.opcode?.map fun op => ⟨stackEffect op i.a.toNat i.b.toNat, closedEffect op i.a.toNat⟩

/-- The text in diagnostics: the opcode's name with both operands, or the raw word. -/
def debugText (i : Instruction) : String :=
  match i.opcode? with
  | some op => op.name ++ "(" ++ toString i.a.toNat ++ ", " ++ toString i.b.toNat ++ ")"
  | none => "Invalid(" ++ Text.hexWord i.word.toNat ++ ")"

end Instruction

end ScriptEngine
