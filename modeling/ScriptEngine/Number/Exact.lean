/-!
# Numbers as exact binary fractions

A number of the language is a 64-bit binary float. Its bits name one exact value: a sign and a
magnitude `mantissa · 2 ^ exponent`, or an infinity, or no number at all. Everything that must be
exact (integrality, truncation, flooring, the digits written) is computed on those parts with
integers, and not by floating-point operations.
-/

namespace ScriptEngine.Number

/-- A finite magnitude `mantissa · 2 ^ exponent`. -/
structure Magnitude where
  mantissa : Nat
  exponent : Int
  /-- The gap to the next smaller magnitude is half the gap to the next larger one. -/
  narrowBelow : Bool
  deriving DecidableEq

/-- The eleven exponent bits. -/
def exponentField (x : Float) : Nat := ((x.toBits >>> 52) &&& 0x7ff).toNat

/-- The fifty-two fraction bits. -/
def fractionField (x : Float) : Nat := (x.toBits &&& 0xfffffffffffff).toNat

/-- The sign bit, which zeros carry too. -/
def isNegative (x : Float) : Bool := x.toBits >>> 63 == 1

def isFinite (x : Float) : Bool := exponentField x != 0x7ff

def isNaN (x : Float) : Bool := exponentField x == 0x7ff && fractionField x != 0

def isInfinite (x : Float) : Bool := exponentField x == 0x7ff && fractionField x == 0

/-- The magnitude of a finite number. -/
def magnitude (x : Float) : Magnitude :=
  let e := exponentField x
  let f := fractionField x
  if e = 0 then ⟨f, -1074, false⟩ else ⟨0x10000000000000 + f, e - 1075, f == 0 && decide (1 < e)⟩

namespace Magnitude

/-- The whole part. -/
def whole (v : Magnitude) : Nat :=
  if 0 ≤ v.exponent then v.mantissa * Nat.pow 2 v.exponent.toNat
  else v.mantissa / Nat.pow 2 (-v.exponent).toNat

/-- Whether the fractional part is zero. -/
def isWhole (v : Magnitude) : Bool :=
  decide (0 ≤ v.exponent) || v.mantissa % Nat.pow 2 (-v.exponent).toNat == 0

end Magnitude

/-- Whether `x` is finite and has no fractional part. -/
def isIntegral (x : Float) : Bool := isFinite x && (magnitude x).isWhole

/-- The integer reached from a finite `x` by dropping its fractional part. -/
def truncate (x : Float) : Int :=
  if isNegative x then -((magnitude x).whole : Int) else (magnitude x).whole

/-- The integer of a number for use as a count or a position: the fractional part is dropped, what
lies outside `lo .. hi` is moved to the nearer end, and what is no number is zero. -/
def clamp (lo hi : Int) (x : Float) : Int :=
  if isNaN x then 0
  else if isInfinite x then (if isNegative x then lo else hi)
  else max lo (min hi (truncate x))

/-- The least signed 64-bit integer. -/
def leastInt64 : Int := -0x8000000000000000

/-- The greatest signed 64-bit integer. -/
def greatestInt64 : Int := 0x7fffffffffffffff

/-- `clamp` to the signed 64-bit range. -/
def toInt64 (x : Float) : Int := clamp leastInt64 greatestInt64 x

/-- The greatest integral number that is not above `x`; a number that is integral already, an
infinity and NaN stay as they are, the sign of a zero included. -/
def floor (x : Float) : Float :=
  if !isFinite x || (magnitude x).isWhole then x
  else if isNegative x then Float.ofInt (truncate x - 1)
  else Float.ofInt (truncate x)

end ScriptEngine.Number
