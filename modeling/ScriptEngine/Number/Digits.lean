import ScriptEngine.Number.Exact

/-!
# The fewest decimal digits that identify a number

The reals that round to a given magnitude form an interval, from halfway to the neighbour below to
halfway to the neighbour above, ends included when the mantissa is even. `shortest` searches the
decimal grids from one digit upwards and takes the first grid with a point in that interval: of two
such points the nearer one, of two equally near ones the larger.
-/

namespace ScriptEngine.Number

/-- The decimal `digits · 10 ^ exponent`. -/
structure Decimal where
  digits : Nat
  exponent : Int
  deriving DecidableEq

/-- Exact comparison of `a · 10 ^ i` with `n · 2 ^ j`. -/
def compareScaled (a : Nat) (i : Int) (n : Nat) (j : Int) : Ordering :=
  compare (a * Nat.pow 10 i.toNat * Nat.pow 2 (-j).toNat)
    (n * Nat.pow 2 j.toNat * Nat.pow 10 (-i).toNat)

namespace Magnitude

/-- Whether `d` lies among the reals that round to `v`. -/
def identifiedBy (v : Magnitude) (d : Decimal) : Bool :=
  let below := if v.narrowBelow then 4 * v.mantissa - 1 else 4 * v.mantissa - 2
  let above := 4 * v.mantissa + 2
  let closed := v.mantissa % 2 == 0
  let low := compareScaled d.digits d.exponent below (v.exponent - 2)
  let high := compareScaled d.digits d.exponent above (v.exponent - 2)
  (low == .gt || (closed && low == .eq)) && (high == .lt || (closed && high == .eq))

/-- Searches for the least `k ≥ start` with `v < 10 ^ k`, for at most `steps` steps. -/
def scaleFrom (v : Magnitude) (start : Int) : Nat → Int
  | 0 => start
  | steps + 1 =>
    if compareScaled 1 start v.mantissa v.exponent == .gt then start
    else scaleFrom v (start + 1) steps

/-- The least `k` with `v < 10 ^ k`, for `v` above zero. Three tenths of the binary logarithm fall
short of the decimal one by little, so the search is short. -/
def scale (v : Magnitude) : Int :=
  let log2 : Int := v.mantissa.log2 + v.exponent
  scaleFrom v (if 0 ≤ log2 then log2 * 3 / 10 else log2 * 31 / 100 - 1) 24

/-- The number of steps of `10 ^ exponent` that fit in `v`. -/
def quotient (v : Magnitude) (exponent : Int) : Nat :=
  (v.mantissa * Nat.pow 2 v.exponent.toNat * Nat.pow 10 (-exponent).toNat) /
    (Nat.pow 2 (-v.exponent).toNat * Nat.pow 10 exponent.toNat)

/-- The neighbour of `v` on the grid `10 ^ exponent` that identifies it, if one does. -/
def onGrid? (v : Magnitude) (exponent : Int) : Option Decimal :=
  let floor := v.quotient exponent
  let low : Decimal := ⟨floor, exponent⟩
  let high : Decimal := ⟨floor + 1, exponent⟩
  match v.identifiedBy low, v.identifiedBy high with
  | true, true =>
    -- the midpoint of the two against the value, both doubled
    if compareScaled (2 * floor + 1) exponent (2 * v.mantissa) v.exponent == .gt then some low
    else some high
  | true, false => some low
  | false, true => some high
  | false, false => none

/-- Tries the grids of `digits`, `digits + 1`, … digits below `10 ^ top`, for at most `steps` grids. -/
def searchGrids (v : Magnitude) (top : Int) (digits : Nat) : Nat → Option Decimal
  | 0 => none
  | steps + 1 =>
    match v.onGrid? (top - digits) with
    | some d => some d
    | none => searchGrids v top (digits + 1) steps

/-- The value itself as a decimal, with all its digits. -/
def exactDecimal (v : Magnitude) : Decimal :=
  if 0 ≤ v.exponent then ⟨v.mantissa * Nat.pow 2 v.exponent.toNat, 0⟩
  else ⟨v.mantissa * Nat.pow 5 (-v.exponent).toNat, v.exponent⟩

end Magnitude

namespace Decimal

/-- Moves trailing zeros of the digits into the exponent, at most `steps` of them. -/
def stripZeros (d : Decimal) : Nat → Decimal
  | 0 => d
  | steps + 1 =>
    if d.digits ≠ 0 ∧ d.digits % 10 = 0 then stripZeros ⟨d.digits / 10, d.exponent + 1⟩ steps
    else d

end Decimal

/-- The decimal with the fewest digits that identifies `v`. -/
def Magnitude.shortest (v : Magnitude) : Decimal :=
  if v.mantissa = 0 then ⟨0, 0⟩
  else ((v.searchGrids v.scale 1 17).getD v.exactDecimal).stripZeros 20

end ScriptEngine.Number
