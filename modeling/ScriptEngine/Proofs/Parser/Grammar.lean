import ScriptEngine.Ast

/-!
# The grammar, and how programs are written

Which programs there are, said without the parser. Operators form levels from `or`, which binds least,
to `^`, and each operator says which levels its operands may have; `isWellFormed` puts this together with
what the grammar asks of statements, calls and functions. `print` writes a program as token kinds: with
`;` between statements, and with parentheses only for nodes that are parentheses, for arguments and for
parameters. Printing forgets lines, so programs are compared after `erase`.
-/

namespace ScriptEngine

/-- How strongly an expression holds together, the loosest first. -/
inductive Level where
  | disjunction
  | conjunction
  | comparison
  | concatenation
  | sum
  | product
  | prefixed
  | power
  | simple
  deriving DecidableEq

namespace Level

/-- The place of a level in the order. -/
def rank : Level → Nat
  | disjunction => 0
  | conjunction => 1
  | comparison => 2
  | concatenation => 3
  | sum => 4
  | product => 5
  | prefixed => 6
  | power => 7
  | simple => 8

instance : LE Level := ⟨fun a b => a.rank ≤ b.rank⟩

instance (a b : Level) : Decidable (a ≤ b) := inferInstanceAs (Decidable (a.rank ≤ b.rank))

end Level

namespace BinaryOp

def level : BinaryOp → Level
  | or => .disjunction
  | and => .conjunction
  | eq | notEq | lt | ltEq | gt | gtEq => .comparison
  | concat => .concatenation
  | add | sub => .sum
  | mul | div | mod => .product
  | pow => .power

/-- The least level of the left operand. `..` and `^` group to the right. -/
def leftLevel : BinaryOp → Level
  | or => .disjunction
  | and => .conjunction
  | eq | notEq | lt | ltEq | gt | gtEq => .comparison
  | concat => .sum
  | add | sub => .sum
  | mul | div | mod => .product
  | pow => .simple

/-- The least level of the right operand. What follows `^` may have a prefix. -/
def rightLevel : BinaryOp → Level
  | or => .conjunction
  | and => .comparison
  | eq | notEq | lt | ltEq | gt | gtEq => .concatenation
  | concat => .concatenation
  | add | sub => .product
  | mul | div | mod => .prefixed
  | pow => .prefixed

def kind : BinaryOp → Kind
  | or => .keyword .or_
  | and => .keyword .and_
  | eq => .symbol .eq
  | notEq => .symbol .notEq
  | lt => .symbol .lt
  | ltEq => .symbol .ltEq
  | gt => .symbol .gt
  | gtEq => .symbol .gtEq
  | concat => .symbol .dotDot
  | add => .symbol .plus
  | sub => .symbol .minus
  | mul => .symbol .star
  | div => .symbol .slash
  | mod => .symbol .percent
  | pow => .symbol .caret

end BinaryOp

def UnaryOp.kind : UnaryOp → Kind
  | neg => .symbol .minus
  | not => .keyword .not_
  | len => .symbol .hash

namespace Expr

def level : Expr → Level
  | binary op .. => op.level
  | unary .. => .prefixed
  | _ => .simple

/-- Whether fields, keys and calls can follow the expression. -/
def isPrefix : Expr → Bool
  | name .. | paren .. | index .. | field .. | call .. | methodCall .. => true
  | _ => false

end Expr

/-! ## Well-formed programs -/

mutual
/-- The grammar has the expression. -/
def Expr.isWellFormed : Expr → Bool
  | .nil _ | .boolean .. | .number .. | .string .. | .varargs _ | .name .. => true
  | .paren inner _ => inner.isWellFormed
  | .unary _ operand _ => decide (.prefixed ≤ operand.level) && operand.isWellFormed
  | .binary op lhs rhs _ => decide (op.leftLevel ≤ lhs.level) && decide (op.rightLevel ≤ rhs.level) &&
    lhs.isWellFormed && rhs.isWellFormed
  | .index table key _ => table.isPrefix && table.isWellFormed && key.isWellFormed
  | .field table _ _ => table.isPrefix && table.isWellFormed
  | .call callee args _ => callee.isPrefix && callee.isWellFormed && exprsAreWellFormed args
  | .methodCall object _ args _ => object.isPrefix && object.isWellFormed && exprsAreWellFormed args
  | .function body => body.isWellFormed
  | .table fields _ => fieldsAreWellFormed fields

def exprsAreWellFormed : List Expr → Bool
  | [] => true
  | e :: rest => e.isWellFormed && exprsAreWellFormed rest

def fieldsAreWellFormed : List TableField → Bool
  | [] => true
  | .keyed key value :: rest => key.isWellFormed && value.isWellFormed && fieldsAreWellFormed rest
  | .named _ value :: rest => value.isWellFormed && fieldsAreWellFormed rest
  | .positional value :: rest => value.isWellFormed && fieldsAreWellFormed rest

def FunctionBody.isWellFormed : FunctionBody → Bool
  | ⟨_, _, body, _⟩ => body.isWellFormed

/-- The grammar has the statement. A method has the parameter `self` before the written ones. -/
def Stmt.isWellFormed : Stmt → Bool
  | .local names values _ => !names.isEmpty && exprsAreWellFormed values
  | .localFunction _ body _ => body.isWellFormed
  | .assign targets values _ => !targets.isEmpty && targets.all Expr.isAssignable &&
    exprsAreWellFormed targets && !values.isEmpty && exprsAreWellFormed values
  | .call e => e.isCall && e.isWellFormed
  | .block body => body.isWellFormed
  | .while cond body _ => cond.isWellFormed && body.isWellFormed
  | .repeat body cond _ => body.isWellFormed && cond.isWellFormed
  | .if clauses otherwise _ => !clauses.isEmpty && clausesAreWellFormed clauses &&
    match otherwise with
    | some body => body.isWellFormed
    | none => true
  | .numericFor _ start limit step body _ => start.isWellFormed && limit.isWellFormed &&
    (match step with
      | some e => e.isWellFormed
      | none => true) && body.isWellFormed
  | .genericFor names values body _ => !names.isEmpty && !values.isEmpty && exprsAreWellFormed values &&
    body.isWellFormed
  | .function name body _ =>
    (name.method.isNone || body.params.head? == some "self") && body.isWellFormed
  | .break _ => true

def clausesAreWellFormed : List Clause → Bool
  | [] => true
  | ⟨cond, body⟩ :: rest => cond.isWellFormed && body.isWellFormed && clausesAreWellFormed rest

/-- The grammar has the block. -/
def Block.isWellFormed : Block → Bool
  | ⟨stmts, ret, _⟩ => stmtsAreWellFormed stmts &&
    match ret with
    | some ⟨values, _⟩ => exprsAreWellFormed values
    | none => true

def stmtsAreWellFormed : List Stmt → Bool
  | [] => true
  | stmt :: rest => stmt.isWellFormed && stmtsAreWellFormed rest
end

attribute [simp] Expr.isWellFormed

/-! ## Printing -/

/-- Names, each after a separator. -/
def printNamesAfter (separator : Symbol) : List String → List Kind
  | [] => []
  | name :: rest => .symbol separator :: .name name :: printNamesAfter separator rest

/-- Names with commas between them. -/
def printNames : List String → List Kind
  | [] => []
  | name :: rest => .name name :: printNamesAfter .comma rest

/-- What is between the parentheses of a parameter list. -/
def printParameters : List String → Bool → List Kind
  | [], false => []
  | [], true => [.symbol .dotDotDot]
  | name :: rest, isVararg => .name name :: printNamesAfter .comma rest ++
    if isVararg then [.symbol .comma, .symbol .dotDotDot] else []

def FunctionName.print (name : FunctionName) : List Kind :=
  .name name.root :: printNamesAfter .dot name.fields ++
    match name.method with
    | some method => [.symbol .colon, .name method]
    | none => []

mutual
def Expr.print : Expr → List Kind
  | .nil _ => [.keyword .nil_]
  | .boolean b _ => [.keyword (if b then .true_ else .false_)]
  | .number n _ => [.number n]
  | .string s _ => [.string s]
  | .varargs _ => [.symbol .dotDotDot]
  | .name name _ => [.name name]
  | .paren inner _ => .symbol .leftParen :: (inner.print ++ [.symbol .rightParen])
  | .unary op operand _ => op.kind :: operand.print
  | .binary op lhs rhs _ => lhs.print ++ op.kind :: rhs.print
  | .index table key _ =>
    table.print ++ .symbol .leftBracket :: (key.print ++ [.symbol .rightBracket])
  | .field table name _ => table.print ++ [.symbol .dot, .name name]
  | .call callee args _ =>
    callee.print ++ .symbol .leftParen :: (printExprs args ++ [.symbol .rightParen])
  | .methodCall object method args _ => object.print ++
    .symbol .colon :: .name method :: .symbol .leftParen :: (printExprs args ++ [.symbol .rightParen])
  | .function body => .keyword .function_ :: body.print 0
  | .table fields _ => .symbol .leftBrace :: (printFields fields ++ [.symbol .rightBrace])

/-- Expressions with commas between them. -/
def printExprs : List Expr → List Kind
  | [] => []
  | e :: rest => e.print ++ printExprsAfter rest

/-- Expressions, each after a comma. -/
def printExprsAfter : List Expr → List Kind
  | [] => []
  | e :: rest => .symbol .comma :: (e.print ++ printExprsAfter rest)

def TableField.print : TableField → List Kind
  | .keyed key value => .symbol .leftBracket ::
    (key.print ++ .symbol .rightBracket :: .symbol .assign :: value.print)
  | .named name value => .name name :: .symbol .assign :: value.print
  | .positional value => value.print

def printFields : List TableField → List Kind
  | [] => []
  | [field] => field.print
  | field :: next :: rest => field.print ++ .symbol .comma :: printFields (next :: rest)

/-- A function without its first parameters, which are not written. -/
def FunctionBody.print (hidden : Nat) : FunctionBody → List Kind
  | ⟨params, isVararg, body, _⟩ => .symbol .leftParen :: (printParameters (params.drop hidden) isVararg ++
    .symbol .rightParen :: (body.print ++ [.keyword .end_]))

def Stmt.print : Stmt → List Kind
  | .local names [] _ => .keyword .local_ :: printNames names
  | .local names (e :: rest) _ =>
    .keyword .local_ :: (printNames names ++ .symbol .assign :: printExprs (e :: rest))
  | .localFunction name body _ => .keyword .local_ :: .keyword .function_ :: .name name :: body.print 0
  | .assign targets values _ => printExprs targets ++ .symbol .assign :: printExprs values
  | .call e => e.print
  | .block body => .keyword .do_ :: (body.print ++ [.keyword .end_])
  | .while cond body _ =>
    .keyword .while_ :: (cond.print ++ .keyword .do_ :: (body.print ++ [.keyword .end_]))
  | .repeat body cond _ => .keyword .repeat_ :: (body.print ++ .keyword .until_ :: cond.print)
  | .if clauses otherwise _ => .keyword .if_ :: (printClauses clauses ++
    (match otherwise with
      | some body => .keyword .else_ :: body.print
      | none => []) ++ [.keyword .end_])
  | .numericFor var start limit step body _ => .keyword .for_ :: .name var :: .symbol .assign ::
    (start.print ++ .symbol .comma :: (limit.print ++
      (match step with
        | some e => .symbol .comma :: e.print
        | none => []) ++ .keyword .do_ :: (body.print ++ [.keyword .end_])))
  | .genericFor names values body _ => .keyword .for_ :: (printNames names ++
    .keyword .in_ :: (printExprs values ++ .keyword .do_ :: (body.print ++ [.keyword .end_])))
  | .function name body _ =>
    .keyword .function_ :: (name.print ++ body.print (if name.method.isSome then 1 else 0))
  | .break _ => [.keyword .break_]

def printClauses : List Clause → List Kind
  | [] => []
  | ⟨cond, body⟩ :: rest => cond.print ++ .keyword .then_ :: (body.print ++ printClausesAfter rest)

/-- Clauses, each after `elseif`. -/
def printClausesAfter : List Clause → List Kind
  | [] => []
  | ⟨cond, body⟩ :: rest =>
    .keyword .elseif_ :: (cond.print ++ .keyword .then_ :: (body.print ++ printClausesAfter rest))

def Return.print : Return → List Kind
  | ⟨values, _⟩ => .keyword .return_ :: printExprs values

def Block.print : Block → List Kind
  | ⟨stmts, ret, _⟩ => printStmts stmts
      (match ret with
        | some r => some r.print
        | none => none)

/-- Statements and perhaps a return, with semicolons between them. -/
def printStmts : List Stmt → Option (List Kind) → List Kind
  | [], ret => ret.getD []
  | [stmt], none => stmt.print
  | stmt :: rest, ret => stmt.print ++ .symbol .semicolon :: printStmts rest ret
end

attribute [grind =] Expr.print TableField.print Stmt.print printExprs printStmts printNamesAfter

/-! ## Programs without lines -/

mutual
/-- The expression with all lines set to 0. -/
def Expr.erase : Expr → Expr
  | .nil _ => .nil 0
  | .boolean b _ => .boolean b 0
  | .number n _ => .number n 0
  | .string s _ => .string s 0
  | .varargs _ => .varargs 0
  | .name name _ => .name name 0
  | .paren inner _ => .paren inner.erase 0
  | .unary op operand _ => .unary op operand.erase 0
  | .binary op lhs rhs _ => .binary op lhs.erase rhs.erase 0
  | .index table key _ => .index table.erase key.erase 0
  | .field table name _ => .field table.erase name 0
  | .call callee args _ => .call callee.erase (eraseExprs args) 0
  | .methodCall object method args _ => .methodCall object.erase method (eraseExprs args) 0
  | .function body => .function body.erase
  | .table fields _ => .table (eraseFields fields) 0

def eraseExprs : List Expr → List Expr
  | [] => []
  | e :: rest => e.erase :: eraseExprs rest

def TableField.erase : TableField → TableField
  | .keyed key value => .keyed key.erase value.erase
  | .named name value => .named name value.erase
  | .positional value => .positional value.erase

def eraseFields : List TableField → List TableField
  | [] => []
  | field :: rest => field.erase :: eraseFields rest

def FunctionBody.erase : FunctionBody → FunctionBody
  | ⟨params, isVararg, body, _⟩ => ⟨params, isVararg, body.erase, 0⟩

def Stmt.erase : Stmt → Stmt
  | .local names values _ => .local names (eraseExprs values) 0
  | .localFunction name body _ => .localFunction name body.erase 0
  | .assign targets values _ => .assign (eraseExprs targets) (eraseExprs values) 0
  | .call e => .call e.erase
  | .block body => .block body.erase
  | .while cond body _ => .while cond.erase body.erase 0
  | .repeat body cond _ => .repeat body.erase cond.erase 0
  | .if clauses otherwise _ => .if (eraseClauses clauses)
    (match otherwise with
      | some body => some body.erase
      | none => none) 0
  | .numericFor var start limit step body _ => .numericFor var start.erase limit.erase
    (match step with
      | some e => some e.erase
      | none => none) body.erase 0
  | .genericFor names values body _ => .genericFor names (eraseExprs values) body.erase 0
  | .function name body _ => .function name body.erase 0
  | .break _ => .break 0

def Clause.erase : Clause → Clause
  | ⟨cond, body⟩ => ⟨cond.erase, body.erase⟩

def eraseClauses : List Clause → List Clause
  | [] => []
  | clause :: rest => clause.erase :: eraseClauses rest

def Return.erase : Return → Return
  | ⟨values, _⟩ => ⟨eraseExprs values, 0⟩

/-- The block with all lines set to 0. -/
def Block.erase : Block → Block
  | ⟨stmts, ret, _⟩ => ⟨eraseStmts stmts,
      match ret with
      | some r => some r.erase
      | none => none, 0⟩

def eraseStmts : List Stmt → List Stmt
  | [] => []
  | stmt :: rest => stmt.erase :: eraseStmts rest
end

attribute [grind =] Expr.erase TableField.erase Stmt.erase

end ScriptEngine
