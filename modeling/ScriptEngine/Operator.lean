import ScriptEngine.Number.Reading
import ScriptEngine.Value

/-!
# Operators on plain values

What the operators do to numbers and strings, before any metamethod is asked.
-/

namespace ScriptEngine

inductive Arithmetic where
  | add
  | sub
  | mul
  | div
  | mod
  | pow
  deriving DecidableEq

namespace Arithmetic

/-- The metamethod that overloads the operator. -/
def event : Arithmetic → String
  | add => "__add"
  | sub => "__sub"
  | mul => "__mul"
  | div => "__div"
  | mod => "__mod"
  | pow => "__pow"

/-- The operator on numbers; a remainder takes the sign of the divisor. -/
def apply : Arithmetic → Float → Float → Float
  | add, x, y => x + y
  | sub, x, y => x - y
  | mul, x, y => x * y
  | div, x, y => x / y
  | mod, x, y => x - Number.floor (x / y) * y
  | pow, x, y => x.pow y

end Arithmetic

namespace Value

/-- The text that a string or a number contributes to a concatenation. -/
def piece? : Value → Option String
  | string s => some s
  | number n => some (Number.text n)
  | _ => none

/-- The concatenation of two strings or numbers. -/
def concat? (a b : Value) : Option String := do
  let x ← a.piece?
  let y ← b.piece?
  pure (x ++ y)

/-- Whether `a` is less than `b`: two numbers by value, two strings by their characters. -/
def less? : Value → Value → Option Bool
  | number x, number y => some (decide (x < y))
  | string x, string y => some (decide (x < y))
  | _, _ => none

/-- Whether `a` is less than or equal to `b`. -/
def lessEq? : Value → Value → Option Bool
  | number x, number y => some (decide (x ≤ y))
  | string x, string y => some (!decide (y < x))
  | _, _ => none

/-- A number, or the number that a string denotes. -/
def coerce? : Value → Option Float
  | number n => some n
  | string s => Number.ofText? s
  | _ => none

end Value

end ScriptEngine
