/-!
# Texts of a given width

Listings line up their columns, and words are shown with all their hexadecimal digits.
-/

namespace ScriptEngine.Text

/-- The lower-case hexadecimal digits of `n`. -/
def hexDigits (n : Nat) : String := String.ofList (Nat.toDigits 16 n)

/-- The text with `fill` in front of it up to `width` characters. -/
def padLeft (width : Nat) (fill : Char) (s : String) : String :=
  String.ofList (List.replicate (width - s.length) fill) ++ s

/-- The text with spaces behind it up to `width` characters. -/
def padRight (width : Nat) (s : String) : String :=
  s ++ String.ofList (List.replicate (width - s.length) ' ')

/-- `n` as a hexadecimal word of eight digits. -/
def hexWord (n : Nat) : String := "0x" ++ padLeft 8 '0' (hexDigits n)

end ScriptEngine.Text
