import ScriptEngine.Fault

/-!
# Table keys

Every value can be a key except `nil`, NaN and a multi-value. Two values are the same key exactly when
they have the same `Key`: numbers by value, with one key for both zeros, strings by content, and what
lives in a store by identity.
-/

namespace ScriptEngine

inductive Key where
  | boolean (b : Bool)
  /-- A number by its bits, those of the positive zero standing for both. -/
  | number (bits : UInt64)
  | string (s : String)
  | table (id : Nat)
  | closure (id : Nat)
  | core (f : CoreFunction)
  | host (id : Nat)
  | thread (id : Nat)
  deriving DecidableEq, Hashable

namespace Key

/-- The key of a number that is not NaN. -/
def ofNumber (n : Float) : Key :=
  number (if n.toBits = 0x8000000000000000 then 0 else n.toBits)

/-- The key of a position in a sequence. -/
def ofNat (n : Nat) : Key := ofNumber (Float.ofNat n)

/-- The key that a value stands for, or why it stands for none. -/
def ofValue : Value → Except Fault Key
  | .nil => .error (.invalidKey "nil")
  | .boolean b => .ok (boolean b)
  | .number n => if Number.isNaN n then .error (.invalidKey "NaN") else .ok (ofNumber n)
  | .string s => .ok (string s)
  | .table id => .ok (table id)
  | .closure id => .ok (closure id)
  | .core f => .ok (core f)
  | .host id _ => .ok (host id)
  | .thread id => .ok (thread id)
  | .multi _ => .error (.invalidKey "a multi-value")

end Key

end ScriptEngine
