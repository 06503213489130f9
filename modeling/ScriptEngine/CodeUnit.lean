import ScriptEngine.Instruction
import ScriptEngine.Value

/-!
# Compiled units

A unit is one compiled function body or chunk: its instructions with their source lines, its constants
and the units of the functions written inside it, which `closure` instructions name by their ids.
-/

namespace ScriptEngine

structure CodeUnit where
  id : Nat
  /-- The function's name in diagnostics. -/
  name : String
  /-- The label of the chunk the unit was compiled from. -/
  source : String
  paramCount : Nat
  isVararg : Bool
  code : Array Instruction
  /-- The source line of each instruction. -/
  lines : Array Nat
  constants : Array Value
  /-- The nested units, in ascending order of their ids. -/
  children : List CodeUnit
  deriving Inhabited

namespace CodeUnit

/-- The nested unit with the given id. -/
def child? (u : CodeUnit) (id : Nat) : Option CodeUnit := u.children.find? (·.id == id)

/-- The source line of an instruction, or 0 where none is recorded. -/
def lineAt (u : CodeUnit) (ip : Nat) : Nat := (u.lines[ip]?).getD 0

mutual
/-- The unit and all units nested in it, each before its own nested units. -/
def walk : CodeUnit → List CodeUnit
  | ⟨id, name, source, paramCount, isVararg, code, lines, constants, children⟩ =>
    ⟨id, name, source, paramCount, isVararg, code, lines, constants, children⟩ :: walkAll children

def walkAll : List CodeUnit → List CodeUnit
  | [] => []
  | u :: rest => walk u ++ walkAll rest
end

theorem walk_eq (u : CodeUnit) : u.walk = u :: walkAll u.children := by
  cases u
  simp [walk]

end CodeUnit

end ScriptEngine
