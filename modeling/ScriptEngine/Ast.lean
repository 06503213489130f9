import ScriptEngine.Token

/-!
# The abstract program

A chunk is a block of statements. Every node keeps the line that diagnostics and line tables give for
it. Parentheses are nodes of their own, because they cut a multi-value down to one value.
-/

namespace ScriptEngine

inductive UnaryOp where
  | neg
  | not
  | len
  deriving DecidableEq

inductive BinaryOp where
  | add
  | sub
  | mul
  | div
  | mod
  | pow
  | concat
  | eq
  | notEq
  | lt
  | ltEq
  | gt
  | gtEq
  | and
  | or
  deriving DecidableEq

/-- The name in a function statement: a variable, fields below it, and perhaps a method. -/
structure FunctionName where
  root : String
  fields : List String
  method : Option String
  deriving DecidableEq

/-- The name as written, for diagnostics. -/
def FunctionName.text (n : FunctionName) : String :=
  n.root ++ String.join (n.fields.map ("." ++ ·)) ++
    match n.method with
    | some m => ":" ++ m
    | none => ""

mutual
inductive Expr where
  | nil (line : Nat)
  | boolean (b : Bool) (line : Nat)
  | number (n : Float) (line : Nat)
  | string (s : String) (line : Nat)
  | varargs (line : Nat)
  | name (name : String) (line : Nat)
  | paren (inner : Expr) (line : Nat)
  | unary (op : UnaryOp) (operand : Expr) (line : Nat)
  | binary (op : BinaryOp) (lhs rhs : Expr) (line : Nat)
  | index (table key : Expr) (line : Nat)
  | field (table : Expr) (name : String) (line : Nat)
  | call (callee : Expr) (args : List Expr) (line : Nat)
  | methodCall (object : Expr) (method : String) (args : List Expr) (line : Nat)
  | function (body : FunctionBody)
  | table (fields : List TableField) (line : Nat)

inductive TableField where
  | keyed (key value : Expr)
  | named (name : String) (value : Expr)
  | positional (value : Expr)

structure FunctionBody where
  params : List String
  isVararg : Bool
  body : Block
  line : Nat

inductive Stmt where
  | local (names : List String) (values : List Expr) (line : Nat)
  | localFunction (name : String) (body : FunctionBody) (line : Nat)
  | assign (targets values : List Expr) (line : Nat)
  | call (call : Expr)
  | block (body : Block)
  | while (cond : Expr) (body : Block) (line : Nat)
  | repeat (body : Block) (cond : Expr) (line : Nat)
  /-- One clause per condition, in order, and what runs if none of them holds. -/
  | if (clauses : List Clause) (otherwise : Option Block) (line : Nat)
  | numericFor (var : String) (start limit : Expr) (step : Option Expr) (body : Block) (line : Nat)
  | genericFor (names : List String) (values : List Expr) (body : Block) (line : Nat)
  | function (name : FunctionName) (body : FunctionBody) (line : Nat)
  | break (line : Nat)

structure Clause where
  cond : Expr
  body : Block

structure Return where
  values : List Expr
  line : Nat

structure Block where
  stmts : List Stmt
  ret : Option Return
  line : Nat
end

namespace Expr

def line : Expr → Nat
  | nil line | boolean _ line | number _ line | string _ line | varargs line | name _ line => line
  | paren _ line | unary _ _ line | binary _ _ _ line | index _ _ line | field _ _ line => line
  | call _ _ line | methodCall _ _ _ line | table _ line => line
  | function body => body.line

/-- Whether the expression can give any number of values. -/
def isMulti : Expr → Bool
  | call .. | methodCall .. | varargs _ => true
  | _ => false

/-- Whether the expression can stand on the left of an assignment. -/
def isAssignable : Expr → Bool
  | name .. | index .. | field .. => true
  | _ => false

/-- Whether the expression can stand as a statement. -/
def isCall : Expr → Bool
  | call .. | methodCall .. => true
  | _ => false

end Expr

end ScriptEngine
