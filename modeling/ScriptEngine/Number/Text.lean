import ScriptEngine.Number.Digits

/-!
# How numbers are written

Scripts see an integral number below `10 ^ 15` as an integer and every other number positionally,
with the fewest digits that identify it and never an exponent. Diagnostics have a second style that
marks every number as fractional and turns to an exponent for very small and very large ones.
-/

namespace ScriptEngine.Number

/-- The decimal digits of a natural number. -/
def digitsOf (n : Nat) : String := Nat.repr n

def zeros (n : Nat) : String := String.ofList (List.replicate n '0')

/-- Positional writing: whole digits, and after a point the fractional ones if there are any. -/
def positional (d : Decimal) : String :=
  let text := digitsOf d.digits
  if 0 ≤ d.exponent then text ++ zeros d.exponent.toNat
  else
    let places := (-d.exponent).toNat
    if text.length ≤ places then "0." ++ zeros (places - text.length) ++ text
    else (text.take (text.length - places)).toString ++ "." ++ (text.drop (text.length - places)).toString

/-- Writing with an exponent: one digit, the others after a point, `e` and the power of ten. -/
def scientific (d : Decimal) : String :=
  let text := digitsOf d.digits
  let power := d.exponent + (text.length : Int) - 1
  let tail := (text.drop 1).toString
  let point := if tail.isEmpty then "" else "." ++ tail
  (text.take 1).toString ++ point ++ "e" ++ toString power

def signed (x : Float) (text : String) : String := if isNegative x then "-" ++ text else text

/-- The shortest positional text, with the sign of a zero kept. -/
def plainText (x : Float) : String :=
  if isNaN x then "NaN"
  else if isInfinite x then signed x "inf"
  else signed x (positional (magnitude x).shortest)

/-- The text a script sees: integral numbers below `10 ^ 15` as integers, zero without a sign. -/
def text (x : Float) : String :=
  if isNaN x then "nan"
  else if isIntegral x && decide ((truncate x).natAbs < 1000000000000000) then toString (truncate x)
  else plainText x

/-- The text in diagnostics: at least one fractional digit from `10 ^ -4` up to `10 ^ 16`, and an
exponent outside that range. -/
def debugText (x : Float) : String :=
  if isFinite x then
    let d := (magnitude x).shortest
    -- the position of the leading digit: `10 ^ (lead - 1) ≤ d < 10 ^ lead`
    let lead := d.exponent + ((digitsOf d.digits).length : Int)
    if d.digits = 0 then signed x "0.0"
    else if lead < -3 ∨ 16 < lead then signed x (scientific d)
    else if 0 ≤ d.exponent then signed x (positional d ++ ".0")
    else signed x (positional d)
  else plainText x

end ScriptEngine.Number
