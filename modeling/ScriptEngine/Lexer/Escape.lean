import ScriptEngine.Number.Reading
import ScriptEngine.SourceError

/-!
# Escapes in quoted strings

A backslash in a quoted string starts an escape: a control character by its letter, a character by two
hexadecimal or up to three decimal digits, a quote or a backslash for itself, a newline for itself, or
`z`, which skips the blanks that follow it.
-/

namespace ScriptEngine.Lexer

/-- The character that a letter stands for after a backslash. -/
def controlEscape? (c : Char) : Option Char :=
  match c with
  | 'n' => some '\n'
  | '\n' => some '\n'
  | 't' => some '\t'
  | 'r' => some '\r'
  | 'a' => some '\x07'
  | 'b' => some '\x08'
  | 'f' => some '\x0c'
  | 'v' => some '\x0b'
  | '\\' => some '\\'
  | '"' => some '"'
  | '\'' => some '\''
  | _ => none

/-- Resolves the escapes of a string's body. `skip` characters are still to be passed over because an
escape before them took them, and `blanks` says that a run of blanks is being skipped. -/
def unescapeFrom (out : List Char) (skip : Nat) (blanks : Bool) : List Char → Except Flaw (List Char)
  | [] => .ok out.reverse
  | c :: rest =>
    match skip with
    | skip + 1 => unescapeFrom out skip blanks rest
    | 0 =>
      if blanks && Text.isBlank c then unescapeFrom out 0 true rest
      else if c ≠ '\\' then unescapeFrom (c :: out) 0 false rest
      else match rest with
        | [] => .error .unfinishedEscape
        | e :: more =>
          match controlEscape? e with
          | some plain => unescapeFrom (plain :: out) 1 false rest
          | none =>
            if e = 'z' then unescapeFrom out 1 true rest
            else if e = 'x' then
              let digits := more.take 2
              match Number.unsigned? 16 digits with
              | some code => unescapeFrom (Char.ofNat code :: out) (1 + digits.length) false rest
              | none => .error (.hexEscape (String.ofList digits))
            else if e.isDigit then
              let digits := e :: (more.take 2).takeWhile Char.isDigit
              match Number.natural? 10 digits with
              | some code =>
                if code < 256 then unescapeFrom (Char.ofNat code :: out) digits.length false rest
                else .error (.decimalEscape (String.ofList digits))
              | none => .error (.decimalEscape (String.ofList digits))
            else .error (.escape e)

/-- The string that the body of a quoted string denotes. -/
def unescape (body : List Char) : Except Flaw String :=
  (unescapeFrom [] 0 false body).map String.ofList

end ScriptEngine.Lexer
