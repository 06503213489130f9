import ScriptEngine.Lexer.Escape

/-!
# From source text to tokens

`piece` decides what starts at a character: a blank, a comment or a token. `tokensFrom` goes through
the text character by character, asks `piece` at every place where nothing else is under way, and keeps
the position, so every token carries the place of its first character.
-/

namespace ScriptEngine.Lexer

/-- What starts at a character and how many of the characters after it belong to it. Blanks and
comments are pieces without a kind. -/
structure Piece where
  kind : Option Kind
  tail : Nat

/-- A flaw and how many characters lie between the start of the piece and the place to report. -/
structure Failure where
  flaw : Flaw
  offset : Nat

/-- The blanks between tokens. -/
def isSpace (c : Char) : Bool := c == ' ' || c == '\t' || c == '\r' || c == '\n'

def isNameStart (c : Char) : Bool := c.isAlpha || c == '_'

def isNamePart (c : Char) : Bool := c.isAlphanum || c == '_'

def isHexDigit (c : Char) : Bool :=
  c.isDigit || ('a' ≤ c && c ≤ 'f') || ('A' ≤ c && c ≤ 'F')

/-- The level of a long bracket's opening, if the text after its first `[` completes one. -/
def openLevel? (cs : List Char) : Option Nat :=
  let level := (cs.takeWhile (· == '=')).length
  match cs.drop level with
  | '[' :: _ => some level
  | _ => none

/-- The closing of a long bracket. -/
def closing (level : Nat) : List Char := ']' :: (List.replicate level '=' ++ [']'])

/-- The text before the first occurrence of `close`. -/
def before? (close : List Char) (seen : List Char) : List Char → Option (List Char)
  | [] => none
  | c :: rest => if close.isPrefixOf (c :: rest) then some seen.reverse else before? close (c :: seen) rest

/-- The body of a long string: a line break right after the opening does not count. -/
def longText : List Char → String
  | '\r' :: '\n' :: rest => String.ofList rest
  | '\n' :: rest => String.ofList rest
  | cs => String.ofList cs

/-- A long bracket of the given level whose opening ends after `offset` characters, the first of the
piece not counted; `cs` is the text after the opening. -/
def longBracket (level offset : Nat) (cs : List Char) : Except Failure (List Char × Nat) :=
  match before? (closing level) [] cs with
  | some body => .ok (body, offset + body.length + level + 2)
  | none => .error ⟨.unfinishedBracket, offset + 1⟩

/-- A comment, given the text after its two dashes. -/
def comment (cs : List Char) : Except Failure Piece :=
  let plain : Piece := ⟨none, 1 + (cs.takeWhile (· != '\n')).length⟩
  match cs with
  | '[' :: rest =>
    match openLevel? rest with
    | some level => do
      let (_, tail) ← longBracket level (level + 3) (rest.drop (level + 1))
      pure ⟨none, tail⟩
    | none => .ok plain
  | _ => .ok plain

/-- The exponent at the start of a text, as many characters as it has. -/
def exponentLength : List Char → Nat
  | c :: rest =>
    if c = 'e' ∨ c = 'E' then
      let sign := match rest with
        | '+' :: _ => 1
        | '-' :: _ => 1
        | _ => 0
      let digits := ((rest.drop sign).takeWhile Char.isDigit).length
      if digits = 0 then 0 else 1 + sign + digits
    else 0
  | [] => 0

/-- The length of the fraction at the start of a text: a point and any number of digits. -/
def fractionLength : List Char → Nat
  | '.' :: rest => 1 + (rest.takeWhile Char.isDigit).length
  | _ => 0

/-- The length of the decimal numeral at the start of a text that starts with a digit, or with a point
and a digit. -/
def numeralLength (cs : List Char) : Nat :=
  let whole := (cs.takeWhile Char.isDigit).length
  let mantissa := whole + fractionLength (cs.drop whole)
  mantissa + exponentLength (cs.drop mantissa)

/-- The number token of a lexeme that `value` was read from. -/
def numberPiece (lexeme : List Char) (value : Option Float) : Except Failure Piece :=
  match value with
  | some n => .ok ⟨some (.number n), lexeme.length - 1⟩
  | none => .error ⟨.malformedNumber (String.ofList lexeme), lexeme.length⟩

/-- The decimal numeral at the start of a text. -/
def decimalNumber (cs : List Char) : Except Failure Piece :=
  let lexeme := cs.take (numeralLength cs)
  numberPiece lexeme (Number.decimal? lexeme)

/-- The hexadecimal numeral with the given digits, after `0` and `x`. -/
def hexNumber (x : Char) (digits : List Char) : Except Failure Piece :=
  numberPiece ('0' :: x :: digits) ((Number.unsigned? 16 digits).map Float.ofNat)

/-- The number at the start of a text. -/
def number (cs : List Char) : Except Failure Piece :=
  match cs with
  | '0' :: x :: rest =>
    let digits := rest.takeWhile isHexDigit
    if (x = 'x' ∨ x = 'X') ∧ !digits.isEmpty then hexNumber x digits else decimalNumber cs
  | _ => decimalNumber cs

/-- A keyword or a name. -/
def word (cs : List Char) : Piece :=
  let text := String.ofList (cs.takeWhile isNamePart)
  let kind := match Keyword.ofText? text with
    | some k => Kind.keyword k
    | none => Kind.name text
  ⟨some kind, (cs.takeWhile isNamePart).length - 1⟩

/-- The body of a quoted string up to its closing quote: a backslash protects the character after it,
and a bare newline is not allowed. -/
def quotedBody? (quote : Char) (escaped : Bool) (seen : List Char) : List Char → Option (List Char)
  | [] => none
  | c :: rest =>
    if escaped then quotedBody? quote false (c :: seen) rest
    else if c = quote then some seen.reverse
    else if c = '\n' then none
    else quotedBody? quote (c == '\\') (c :: seen) rest

/-- A quoted string, given its quote and the text after it. -/
def quotedString (quote : Char) (cs : List Char) : Except Failure Piece :=
  match quotedBody? quote false [] cs with
  | none => .error ⟨.unexpectedCharacter quote, 0⟩
  | some body =>
    match unescape body with
    | .ok s => .ok ⟨some (.string s), body.length + 1⟩
    | .error flaw => .error ⟨flaw, body.length + 2⟩

/-- A symbol, the longest that fits. -/
def symbol? (c : Char) (cs : List Char) : Option (Symbol × Nat) :=
  match c, cs with
  | '.', '.' :: '.' :: _ => some (.dotDotDot, 2)
  | '.', '.' :: _ => some (.dotDot, 1)
  | '=', '=' :: _ => some (.eq, 1)
  | '~', '=' :: _ => some (.notEq, 1)
  | '<', '=' :: _ => some (.ltEq, 1)
  | '>', '=' :: _ => some (.gtEq, 1)
  | '-', _ => some (.minus, 0)
  | '+', _ => some (.plus, 0)
  | '*', _ => some (.star, 0)
  | '/', _ => some (.slash, 0)
  | '%', _ => some (.percent, 0)
  | '^', _ => some (.caret, 0)
  | '#', _ => some (.hash, 0)
  | '<', _ => some (.lt, 0)
  | '>', _ => some (.gt, 0)
  | '=', _ => some (.assign, 0)
  | '(', _ => some (.leftParen, 0)
  | ')', _ => some (.rightParen, 0)
  | '{', _ => some (.leftBrace, 0)
  | '}', _ => some (.rightBrace, 0)
  | '[', _ => some (.leftBracket, 0)
  | ']', _ => some (.rightBracket, 0)
  | ';', _ => some (.semicolon, 0)
  | ':', _ => some (.colon, 0)
  | ',', _ => some (.comma, 0)
  | '.', _ => some (.dot, 0)
  | _, _ => none

/-- A symbol, or nothing that a token may start with. -/
def symbolPiece (c : Char) (cs : List Char) : Except Failure Piece :=
  match symbol? c cs with
  | some (s, tail) => .ok ⟨some (.symbol s), tail⟩
  | none => .error ⟨.unexpectedCharacter c, 0⟩

/-- Whether a number starts with these characters. -/
def startsNumber (c : Char) (cs : List Char) : Bool :=
  c.isDigit || (c == '.' && (cs.head?.map Char.isDigit).getD false)

/-- What starts at `c`, with `cs` behind it. -/
def piece (c : Char) (cs : List Char) : Except Failure Piece :=
  if isSpace c then .ok ⟨none, 0⟩
  else if startsNumber c cs then number (c :: cs)
  else if isNameStart c then .ok (word (c :: cs))
  else if c = '"' ∨ c = '\'' then quotedString c cs
  else match c, cs with
    | '-', '-' :: rest => comment rest
    | '[', _ =>
      match openLevel? cs with
      | some level => do
        let (body, tail) ← longBracket level (level + 1) (cs.drop (level + 1))
        pure ⟨some (.string (longText body)), tail⟩
      | none => symbolPiece c cs
    | _, _ => symbolPiece c cs

/-- Goes on with the text at `position`; its first `skip` characters belong to a piece that started
before them. -/
def tokensFrom (seen : Array Token) (position : Position) (skip : Nat) :
    List Char → Except SourceError (Array Token)
  | [] => .ok (seen.push ⟨.eof, position⟩)
  | c :: cs =>
    match skip with
    | skip + 1 => tokensFrom seen (position.after c) skip cs
    | 0 =>
      match piece c cs with
      | .ok ⟨none, tail⟩ => tokensFrom seen (position.after c) tail cs
      | .ok ⟨some kind, tail⟩ => tokensFrom (seen.push ⟨kind, position⟩) (position.after c) tail cs
      | .error ⟨flaw, offset⟩ =>
        let place := position.afterAll ((c :: cs).take offset)
        .error ⟨place.line, place.column, flaw⟩

/-- The tokens of a source text, the last of them marking its end. -/
def tokens (source : String) : Except SourceError (Array Token) :=
  tokensFrom #[] .start 0 source.toList

end ScriptEngine.Lexer
