import ScriptEngine.Text.Columns
import ScriptEngine.Text.Printable

/-!
# Quoted text

Diagnostics show a string between double quotes, with escapes for what would not show as itself.
-/

namespace ScriptEngine.Text

/-- A character as it stands between double quotes. -/
def quotedChar (c : Char) : String :=
  match c with
  | '"' => "\\\""
  | '\\' => "\\\\"
  | '\n' => "\\n"
  | '\r' => "\\r"
  | '\t' => "\\t"
  | _ =>
    if c.toNat = 0 then "\\0"
    else if isShown c then c.toString
    else "\\u\x7b" ++ hexDigits c.toNat ++ "\x7d"

/-- A string between double quotes. -/
def quoted (s : String) : String :=
  s.foldl (fun acc c => acc ++ quotedChar c) "\"" ++ "\""

end ScriptEngine.Text
