import ScriptEngine.Value

/-!
# Faults

Everything that can go wrong while a program is read, compiled or run. `message` is the wording a
script or a host sees; `toValue` is what a protected call hands back.
-/

namespace ScriptEngine

/-- States that no compiled program reaches: an operand or an address out of its range. -/
inductive Defect where
  | slot (offset : Nat)
  | constant (index : Nat)
  | globalName (shown : String)
  | upvalue (index : Nat)
  | nestedUnit (id : Nat)
  | instruction (word : UInt32)
  | address (ip : Nat)
  | noFrame
  deriving DecidableEq

def Defect.message : Defect → String
  | slot offset => s!"stack offset {offset} outside the frame"
  | constant index => s!"constant {index} out of range"
  | globalName shown => "global name must be a string, got " ++ shown
  | upvalue index => s!"upvalue {index} out of range"
  | nestedUnit id => s!"no nested unit {id}"
  | instruction word => "invalid instruction " ++ Text.hexWord word.toNat
  | address ip => s!"instruction pointer {ip} out of range"
  | noFrame => "no active frame"

inductive Fault where
  /-- The source text is not a program. -/
  | malformed (line column : Nat) (message : String)
  /-- The program cannot be compiled. -/
  | compile (message : String)
  /-- A value raised by the script, carried unchanged. -/
  | raised (value : Value)
  | arithmetic (got : String)
  | concat (got : String)
  | compare (lhs rhs : String)
  | call (got : String)
  | index (got : String)
  | length (got : String)
  | argument (function : String) (position : Nat) (message : String)
  | invalidKey (what : String)
  | forLoop (message : String)
  | stackOverflow
  | coroutine (message : String)
  /-- Any other failure while running. -/
  | runtime (message : String)
  /-- A failure that only hand-made units cause. -/
  | defect (cause : Defect)
  /-- A failure with the place of the instruction that caused it. -/
  | located (source : String) (line : Nat) (inner : Fault)

namespace Fault

def message : Fault → String
  | malformed line column text => s!"syntax error at {line}:{column}: {text}"
  | compile text => "compile error: " ++ text
  | raised value => value.text
  | arithmetic got => s!"attempt to perform arithmetic on a {got} value"
  | concat got => s!"attempt to concatenate a {got} value"
  | compare lhs rhs => s!"attempt to compare {lhs} with {rhs}"
  | call got => s!"attempt to call a {got} value"
  | index got => s!"attempt to index a {got} value"
  | length got => s!"attempt to get length of a {got} value"
  | argument function position text => s!"bad argument #{position} to '{function}' ({text})"
  | invalidKey what => "table index is " ++ what
  | forLoop text => "'for' " ++ text
  | stackOverflow => "stack overflow"
  | coroutine text => text
  | runtime text => text
  | defect cause => cause.message
  | located source line inner => s!"{source}:{line}: " ++ inner.message

/-- What a protected call hands back: a raised value unchanged, any other fault as its message. -/
def toValue : Fault → Value
  | raised value => value
  | fault => .string fault.message

/-- The fault with a place, unless it is a raised value or has a place already. -/
def locate (fault : Fault) (source : String) (line : Nat) : Fault :=
  match fault with
  | raised _ | located .. | malformed .. => fault
  | _ => located source line fault

/-- An argument of the wrong type; `got` is the argument if one was passed. -/
def expected (function : String) (position : Nat) (what : String) (got : Option Value) : Fault :=
  argument function position (what ++ " expected, got " ++ (got.map Value.typeName).getD "no value")

end Fault

end ScriptEngine
