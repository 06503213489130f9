import ScriptEngine.Fault
import ScriptEngine.Token

/-!
# What is wrong with a source text

A text that is no program has a first flaw and a place to report it at.
-/

namespace ScriptEngine

inductive Flaw where
  | unexpectedCharacter (c : Char)
  | malformedNumber (text : String)
  /-- A long string or long comment is still open at the end of the text. -/
  | unfinishedBracket
  | hexEscape (digits : String)
  | decimalEscape (digits : String)
  | escape (c : Char)
  | unfinishedEscape
  | expected (want got : Kind)
  | expectedName (got : Kind)
  | unexpectedSymbol (got : Kind)
  | expectedArguments (got : Kind)
  | returnNotLast
  | notStatement
  | notAssignable
  | breakOutsideLoop
  | varargsOutsideFunction
  /-- The parser's allowance of steps, which suffices for every text, is used up. -/
  | exhausted
  deriving DecidableEq

def Flaw.message : Flaw → String
  | unexpectedCharacter c => s!"unexpected character '{c}'"
  | malformedNumber text => s!"malformed number '{text}'"
  | unfinishedBracket => "unfinished long string or comment"
  | hexEscape digits => s!"invalid hex escape '\\x{digits}'"
  | decimalEscape digits => s!"decimal escape '\\{digits}' too large"
  | escape c => s!"invalid escape sequence '\\{c}'"
  | unfinishedEscape => "unfinished escape sequence"
  | expected want got => "expected " ++ want.debugText ++ ", got " ++ got.debugText
  | expectedName got => "expected a name, got " ++ got.debugText
  | unexpectedSymbol got => "unexpected symbol " ++ got.debugText
  | expectedArguments got => "expected function arguments, got " ++ got.debugText
  | returnNotLast => "'return' must be the last statement of a block"
  | notStatement => "expected assignment or function call"
  | notAssignable => "cannot assign to this expression"
  | breakOutsideLoop => "'break' outside a loop"
  | varargsOutsideFunction => "cannot use '...' outside a vararg function"
  | exhausted => "program too complex"

structure SourceError where
  line : Nat
  /-- The column, or 0 where only the line is known. -/
  column : Nat
  flaw : Flaw
  deriving DecidableEq

def SourceError.toFault (e : SourceError) : Fault := .malformed e.line e.column e.flaw.message

end ScriptEngine
