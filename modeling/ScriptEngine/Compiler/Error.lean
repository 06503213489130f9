import ScriptEngine.CodeUnit.Verifier
import ScriptEngine.SourceError

/-!
# Why a program cannot be compiled

Either it breaks a rule that the grammar does not express, or a function exceeds what an instruction's
operands can hold. The other causes are defects that no program leads to.
-/

namespace ScriptEngine

inductive CompileError where
  /-- A rule about the use of `break` and `...` is broken. -/
  | source (error : SourceError)
  | tooManyConstants
  | tooManyFunctions
  | tooManyParameters
  | tooLarge (name : String) (instructions : Nat)
  | operand (value : Nat) (op : Opcode)
  | unresolvedLabel (name : String)
  | unbalanced (ins : Instruction) (name : String)
  | notAssignable
  | verification (failure : Verifier.Failure)
  deriving DecidableEq

namespace CompileError

def toFault : CompileError → Fault
  | source error => error.toFault
  | tooManyConstants => .compile "too many constants in one function"
  | tooManyFunctions => .compile "too many functions in one chunk"
  | tooManyParameters => .compile "too many parameters"
  | tooLarge name instructions =>
    .compile s!"function '{name}' is too large ({instructions} instructions)"
  | operand value op => .compile ("operand " ++ toString value ++ " of " ++ op.mnemonic ++ " out of range")
  | unresolvedLabel name => .compile s!"unresolved jump label in '{name}'"
  | unbalanced ins name => .compile (ins.debugText ++ " unbalances the stack in '" ++ name ++ "'")
  | notAssignable => .compile "cannot assign to this expression"
  | verification failure => .compile failure.message

end CompileError

end ScriptEngine
