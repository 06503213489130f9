import ScriptEngine.Number.Text
import ScriptEngine.Text.Quoted

/-!
# Tokens

A token is a literal, a name, a keyword or a symbol, with the place in the source where it starts.
-/

namespace ScriptEngine

inductive Keyword where
  | and_
  | break_
  | do_
  | else_
  | elseif_
  | end_
  | false_
  | for_
  | function_
  | if_
  | in_
  | local_
  | nil_
  | not_
  | or_
  | repeat_
  | return_
  | then_
  | true_
  | until_
  | while_
  deriving DecidableEq

namespace Keyword

/-- The spelling in source text. -/
def text : Keyword → String
  | and_ => "and"
  | break_ => "break"
  | do_ => "do"
  | else_ => "else"
  | elseif_ => "elseif"
  | end_ => "end"
  | false_ => "false"
  | for_ => "for"
  | function_ => "function"
  | if_ => "if"
  | in_ => "in"
  | local_ => "local"
  | nil_ => "nil"
  | not_ => "not"
  | or_ => "or"
  | repeat_ => "repeat"
  | return_ => "return"
  | then_ => "then"
  | true_ => "true"
  | until_ => "until"
  | while_ => "while"

/-- The keyword with the given spelling. -/
def ofText? : String → Option Keyword
  | "and" => some and_
  | "break" => some break_
  | "do" => some do_
  | "else" => some else_
  | "elseif" => some elseif_
  | "end" => some end_
  | "false" => some false_
  | "for" => some for_
  | "function" => some function_
  | "if" => some if_
  | "in" => some in_
  | "local" => some local_
  | "nil" => some nil_
  | "not" => some not_
  | "or" => some or_
  | "repeat" => some repeat_
  | "return" => some return_
  | "then" => some then_
  | "true" => some true_
  | "until" => some until_
  | "while" => some while_
  | _ => none

/-- The name in diagnostics. -/
def name : Keyword → String
  | and_ => "And"
  | break_ => "Break"
  | do_ => "Do"
  | else_ => "Else"
  | elseif_ => "Elseif"
  | end_ => "End"
  | false_ => "False"
  | for_ => "For"
  | function_ => "Function"
  | if_ => "If"
  | in_ => "In"
  | local_ => "Local"
  | nil_ => "Nil"
  | not_ => "Not"
  | or_ => "Or"
  | repeat_ => "Repeat"
  | return_ => "Return"
  | then_ => "Then"
  | true_ => "True"
  | until_ => "Until"
  | while_ => "While"

end Keyword

inductive Symbol where
  | plus
  | minus
  | star
  | slash
  | percent
  | caret
  | hash
  | eq
  | notEq
  | lt
  | ltEq
  | gt
  | gtEq
  | assign
  | leftParen
  | rightParen
  | leftBrace
  | rightBrace
  | leftBracket
  | rightBracket
  | semicolon
  | colon
  | comma
  | dot
  | dotDot
  | dotDotDot
  deriving DecidableEq

namespace Symbol

/-- The spelling in source text. -/
def text : Symbol → String
  | plus => "+"
  | minus => "-"
  | star => "*"
  | slash => "/"
  | percent => "%"
  | caret => "^"
  | hash => "#"
  | eq => "=="
  | notEq => "~="
  | lt => "<"
  | ltEq => "<="
  | gt => ">"
  | gtEq => ">="
  | assign => "="
  | leftParen => "("
  | rightParen => ")"
  | leftBrace => "\x7b"
  | rightBrace => "\x7d"
  | leftBracket => "["
  | rightBracket => "]"
  | semicolon => ";"
  | colon => ":"
  | comma => ","
  | dot => "."
  | dotDot => ".."
  | dotDotDot => "..."

/-- The name in diagnostics. -/
def name : Symbol → String
  | plus => "Plus"
  | minus => "Minus"
  | star => "Star"
  | slash => "Slash"
  | percent => "Percent"
  | caret => "Caret"
  | hash => "Hash"
  | eq => "Eq"
  | notEq => "NotEq"
  | lt => "Lt"
  | ltEq => "LtEq"
  | gt => "Gt"
  | gtEq => "GtEq"
  | assign => "Assign"
  | leftParen => "LParen"
  | rightParen => "RParen"
  | leftBrace => "LBrace"
  | rightBrace => "RBrace"
  | leftBracket => "LBracket"
  | rightBracket => "RBracket"
  | semicolon => "Semicolon"
  | colon => "Colon"
  | comma => "Comma"
  | dot => "Dot"
  | dotDot => "DotDot"
  | dotDotDot => "DotDotDot"

end Symbol

/-- What a token is, wherever it stands. -/
inductive Kind where
  | number (n : Float)
  | string (s : String)
  | name (s : String)
  | keyword (k : Keyword)
  | symbol (s : Symbol)
  | eof
  deriving DecidableEq

/-- The text in diagnostics. -/
def Kind.debugText : Kind → String
  | number n => "Number(" ++ Number.debugText n ++ ")"
  | string s => "Str(" ++ Text.quoted s ++ ")"
  | name s => "Name(" ++ Text.quoted s ++ ")"
  | keyword k => k.name
  | symbol s => s.name
  | eof => "Eof"

/-- A place in source text. Lines and columns count from 1, and a column is one byte wide. -/
structure Position where
  line : Nat
  column : Nat
  deriving DecidableEq

namespace Position

def start : Position := ⟨1, 1⟩

/-- The place after a character. -/
def after (p : Position) (c : Char) : Position :=
  if c = '\n' then ⟨p.line + 1, 1⟩ else ⟨p.line, p.column + c.utf8Size⟩

/-- The place after a text. -/
def afterAll (p : Position) (cs : List Char) : Position := cs.foldl after p

end Position

structure Token where
  kind : Kind
  position : Position
  deriving DecidableEq

end ScriptEngine
