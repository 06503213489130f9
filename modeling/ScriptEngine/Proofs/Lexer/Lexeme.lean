import Mathlib.Data.List.Basic
import ScriptEngine.Lexer

/-!
# Lexemes and what stands between them

How each kind of token may be spelled (`Lexeme`), and which characters may stand between two tokens
(`Filler`): blanks, comments that run to the end of their line, and closed long comments. Both are said
without the functions that look for them in a text.
-/

namespace ScriptEngine.Lexer

/-- Only decimal digits. -/
def Digits (cs : List Char) : Prop := ∀ c ∈ cs, c.isDigit = true

/-- A decimal numeral: digits with an optional point and fraction, or a point and digits, and an optional
exponent. -/
structure DecimalNumeral (cs whole fraction exponent : List Char) : Prop where
  parts : cs = whole ++ (fraction ++ exponent)
  digits : Digits whole
  point : fraction = [] ∨ ∃ ds, fraction = '.' :: ds ∧ Digits ds
  /-- There is a digit on at least one side of the point. -/
  some' : whole ≠ [] ∨ ∃ d ds, fraction = '.' :: d :: ds
  power : exponent = [] ∨ ∃ e sign ds, exponent = e :: (sign ++ ds) ∧ (e = 'e' ∨ e = 'E') ∧
    (sign = [] ∨ sign = ['+'] ∨ sign = ['-']) ∧ ds ≠ [] ∧ Digits ds

/-- What may stand between two quotes: no bare quote, backslash or line break, but any character after a
backslash. -/
inductive Quotable (quote : Char) : List Char → Prop
  | nil : Quotable quote []
  | plain {c cs} (quote' : c ≠ quote) (backslash : c ≠ '\\') (newline : c ≠ '\n') (more : Quotable quote cs) :
      Quotable quote (c :: cs)
  | escaped {c cs} (more : Quotable quote cs) : Quotable quote ('\\' :: c :: cs)

/-- The opening of a long bracket. -/
def opening (level : Nat) : List Char := '[' :: (List.replicate level '=' ++ ['['])

/-- A text that ends where its long bracket closes first. -/
def Closed (level : Nat) (body : List Char) : Prop :=
  ∀ before after, body = before ++ after → after ≠ [] → ¬closing level <+: after ++ closing level

/-- The spellings of a kind of token. -/
inductive Lexeme : Kind → List Char → Prop
  | symbol (s : Symbol) : Lexeme (.symbol s) s.text.toList
  | keyword (k : Keyword) : Lexeme (.keyword k) k.text.toList
  | name {c cs} (start : isNameStart c = true) (parts : ∀ c ∈ cs, isNamePart c = true)
      (free : ∀ k : Keyword, k.text ≠ String.ofList (c :: cs)) : Lexeme (.name (String.ofList (c :: cs))) (c :: cs)
  | decimal {cs whole fraction exponent n} (numeral : DecimalNumeral cs whole fraction exponent)
      (value : Number.decimal? cs = some n) : Lexeme (.number n) cs
  | hexadecimal {x digits n} (mark : x = 'x' ∨ x = 'X') (some' : digits ≠ [])
      (digits' : ∀ c ∈ digits, isHexDigit c = true) (value : Number.unsigned? 16 digits = some n) :
      Lexeme (.number (Float.ofNat n)) ('0' :: x :: digits)
  | quoted {quote body s} (quote' : quote = '"' ∨ quote = '\'') (quotable : Quotable quote body)
      (value : unescape body = .ok s) : Lexeme (.string s) (quote :: (body ++ [quote]))
  | long {level body} (closed : Closed level body) :
      Lexeme (.string (longText body)) (opening level ++ (body ++ closing level))

/-- The text of a line comment behind its dashes. -/
structure LineComment (body : List Char) : Prop where
  line : '\n' ∉ body
  short : ∀ level, ¬opening level <+: body

/-- Blanks and complete comments before the text `rest`. -/
inductive Filler : List Char → List Char → Prop
  | nil {rest} : Filler [] rest
  | blank {c gap rest} (space : isSpace c = true) (more : Filler gap rest) : Filler (c :: gap) rest
  | line {body gap rest} (comment : LineComment body)
      (ends : ∀ c ∈ (gap ++ rest).head?, c = '\n') (more : Filler gap rest) :
      Filler ('-' :: '-' :: (body ++ gap)) rest
  | long {level body gap rest} (closed : Closed level body) (more : Filler gap rest) :
      Filler ('-' :: '-' :: (opening level ++ (body ++ (closing level ++ gap)))) rest

end ScriptEngine.Lexer
