import ScriptEngine.Number.Exact
import ScriptEngine.Text.Blank

/-!
# Reading numbers from text

Decimal numerals have digits, an optional point and an optional exponent; hexadecimal ones have
digits only and must fit 64 bits. A decimal is rounded once, to the nearest number.
-/

namespace ScriptEngine.Number

/-- The value of a digit in bases up to thirty-six. -/
def digitValue? (c : Char) : Option Nat :=
  if '0' ≤ c ∧ c ≤ '9' then some (c.toNat - 48)
  else if 'a' ≤ c ∧ c ≤ 'z' then some (c.toNat - 87)
  else if 'A' ≤ c ∧ c ≤ 'Z' then some (c.toNat - 55)
  else none

/-- The natural number that a run of digits in `base` denotes, continuing from `acc`; none if a
character is no digit of the base. -/
def naturalFrom? (base acc : Nat) : List Char → Option Nat
  | [] => some acc
  | c :: rest =>
    match digitValue? c with
    | some d => if d < base then naturalFrom? base (acc * base + d) rest else none
    | none => none

/-- The natural number written by a non-empty run of digits in `base`. -/
def natural? (base : Nat) : List Char → Option Nat
  | [] => none
  | cs => naturalFrom? base 0 cs

/-- An unsigned numeral in `base`, a leading `+` allowed, below `2 ^ 64`. -/
def unsigned? (base : Nat) (cs : List Char) : Option Nat :=
  let digits := match cs with
    | '+' :: rest => rest
    | _ => cs
  (natural? base digits).filter (· ≤ 0xffffffffffffffff)

/-- A signed numeral in `base` within the signed 64-bit range. -/
def signed? (base : Nat) (cs : List Char) : Option Int :=
  let value : Option Int := match cs with
    | '-' :: rest => (natural? base rest).map fun n => -(n : Int)
    | '+' :: rest => (natural? base rest).map Int.ofNat
    | _ => (natural? base cs).map Int.ofNat
  value.filter fun n => decide (leastInt64 ≤ n) && decide (n ≤ greatestInt64)

/-- The number nearest to `digits · 10 ^ exponent`. The binary logarithm of the digits bounds the
decimal one on both sides, which settles what is far beyond the greatest or the least magnitude
without computing the power. -/
def ofDecimal (digits : Nat) (exponent : Int) : Float :=
  let log2 : Int := Nat.log2 digits
  if digits = 0 then 0.0
  else if 310 ≤ exponent + log2 * 30102 / 100000 then Float.ofBits 0x7ff0000000000000
  else if exponent + (log2 + 1) * 30103 / 100000 + 1 ≤ -325 then 0.0
  else if 0 ≤ exponent then Float.ofScientific digits false exponent.toNat
  else Float.ofScientific digits true (-exponent).toNat

/-- A decimal numeral taken apart: the digits before and after the point, and the exponent. -/
structure Numeral where
  whole : List Char
  fraction : List Char
  exponent : Int

/-- The number a decimal numeral denotes. -/
def Numeral.value (n : Numeral) : Float :=
  let digits := (naturalFrom? 10 0 (n.whole ++ n.fraction)).getD 0
  ofDecimal digits (n.exponent - (n.fraction.length : Int))

/-- The exponent that may end a numeral: `e` or `E`, an optional sign, at least one digit. -/
def exponentPart? : List Char → Option Int
  | [] => some 0
  | c :: rest =>
    if c = 'e' ∨ c = 'E' then
      match rest with
      | '-' :: ds => (natural? 10 ds).map fun n => -(n : Int)
      | '+' :: ds => (natural? 10 ds).map Int.ofNat
      | ds => (natural? 10 ds).map Int.ofNat
    else none

/-- Takes a decimal numeral apart: digits on at least one side of the point. -/
def numeral? (cs : List Char) : Option Numeral :=
  let whole := cs.takeWhile Char.isDigit
  let rest := cs.dropWhile Char.isDigit
  let (fraction, tail) := match rest with
    | '.' :: more => (more.takeWhile Char.isDigit, more.dropWhile Char.isDigit)
    | _ => ([], rest)
  if whole.isEmpty && fraction.isEmpty then none
  else (exponentPart? tail).map fun e => ⟨whole, fraction, e⟩

/-- A decimal numeral with an optional sign. -/
def decimal? (cs : List Char) : Option Float :=
  match cs with
  | '-' :: rest => (numeral? rest).map fun n => -n.value
  | '+' :: rest => (numeral? rest).map Numeral.value
  | _ => (numeral? cs).map Numeral.value

/-- Whether every letter of the text is one that a decimal numeral may hold. -/
def onlyExponentLetters (cs : List Char) : Bool :=
  cs.all fun c => !c.isAlpha || c == 'e' || c == 'E'

/-- The number that a whole text denotes, blanks around it aside: a decimal numeral, or hexadecimal
digits after `0x`, either with a sign. -/
def ofText? (s : String) : Option Float :=
  let cs := Text.trim s.toList
  let (negative, digits) := match cs with
    | '-' :: rest => (true, rest)
    | _ => (false, cs)
  let hexadecimal (ds : List Char) : Option Float :=
    (unsigned? 16 ds).map fun n => if negative then -Float.ofNat n else Float.ofNat n
  match digits with
  | '0' :: 'x' :: ds => hexadecimal ds
  | '0' :: 'X' :: ds => hexadecimal ds
  | _ => if onlyExponentLetters cs then decimal? cs else none

end ScriptEngine.Number
