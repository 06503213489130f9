/-!
# Sets of characters as ranges

The tables of character properties are ascending lists of inclusive ranges of code points.
-/

namespace ScriptEngine.Text

/-- Membership of a code point in ascending inclusive ranges. -/
def inRanges (n : Nat) : List (Nat × Nat) → Bool
  | [] => false
  | (lo, hi) :: rest => if n < lo then false else if n ≤ hi then true else inRanges n rest

end ScriptEngine.Text
