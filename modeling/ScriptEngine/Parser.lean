import ScriptEngine.Ast
import ScriptEngine.Lexer

/-!
# From tokens to the abstract program

A recursive descent over the tokens, with precedence climbing for the binary operators. The parser
never moves past the token that marks the end of the text, so looking at the next token is always
possible. Each function takes an allowance of steps; `parse` grants more of them than any text of the
given number of tokens can use.
-/

namespace ScriptEngine

abbrev Parser := StateT (List Token) (Except SourceError)

namespace Parser

/-- The next token's kind. -/
def peek : Parser Kind := do
  match ← get with
  | token :: _ => pure token.kind
  | [] => pure .eof

/-- The kind of the token after the next one. -/
def peekSecond : Parser Kind := do
  match ← get with
  | _ :: token :: _ => pure token.kind
  | _ => pure .eof

/-- The next token's place. -/
def position : Parser Position := do
  match ← get with
  | token :: _ => pure token.position
  | [] => pure .start

def line : Parser Nat := do return (← position).line

/-- Moves past the next token, unless it is the last one. -/
def advance : Parser Unit := do
  match ← get with
  | _ :: token :: rest => set (token :: rest)
  | _ => pure ()

/-- Fails at the next token. -/
def fail {α : Type} (flaw : Flaw) : Parser α := do
  let place ← position
  throw ⟨place.line, place.column, flaw⟩

/-- Moves past the next token if it is of the given kind. -/
def eat (kind : Kind) : Parser Bool := do
  if (← peek) = kind then
    advance
    pure true
  else pure false

/-- Moves past the next token, which must be of the given kind. -/
def expect (kind : Kind) : Parser Unit := do
  let got ← peek
  if got = kind then advance else fail (.expected kind got)

/-- Moves past the next token, which must be a name. -/
def expectName : Parser String := do
  match ← peek with
  | .name s =>
    advance
    pure s
  | got => fail (.expectedName got)

/-- Moves past all semicolons. -/
def skipSemicolons : Parser Unit :=
  modify fun tokens => tokens.dropWhile (·.kind = .symbol .semicolon)

/-- Whether a block ends before a token of this kind. -/
def endsBlock : Kind → Bool
  | .eof => true
  | .keyword k => k = .end_ ∨ k = .else_ ∨ k = .elseif_ ∨ k = .until_
  | _ => false

/-- The binary operator of a token, how strongly it binds to its left and to its right. An operator
that groups to the right binds less strongly there. -/
def binaryOp? : Kind → Option (BinaryOp × Nat × Nat)
  | .keyword .or_ => some (.or, 1, 1)
  | .keyword .and_ => some (.and, 2, 2)
  | .symbol .lt => some (.lt, 3, 3)
  | .symbol .gt => some (.gt, 3, 3)
  | .symbol .ltEq => some (.ltEq, 3, 3)
  | .symbol .gtEq => some (.gtEq, 3, 3)
  | .symbol .eq => some (.eq, 3, 3)
  | .symbol .notEq => some (.notEq, 3, 3)
  | .symbol .dotDot => some (.concat, 5, 4)
  | .symbol .plus => some (.add, 6, 6)
  | .symbol .minus => some (.sub, 6, 6)
  | .symbol .star => some (.mul, 7, 7)
  | .symbol .slash => some (.div, 7, 7)
  | .symbol .percent => some (.mod, 7, 7)
  | .symbol .caret => some (.pow, 13, 12)
  | _ => none

def unaryOp? : Kind → Option UnaryOp
  | .keyword .not_ => some .not
  | .symbol .minus => some .neg
  | .symbol .hash => some .len
  | _ => none

/-- How strongly a unary operator binds; only `^` binds more strongly. -/
def unaryPower : Nat := 11

/-- The literal that a token is by itself. -/
def literal? (kind : Kind) (line : Nat) : Option Expr :=
  match kind with
  | .number n => some (.number n line)
  | .string s => some (.string s line)
  | .keyword .nil_ => some (.nil line)
  | .keyword .true_ => some (.boolean true line)
  | .keyword .false_ => some (.boolean false line)
  | .symbol .dotDotDot => some (.varargs line)
  | _ => none

/-- Names, each after a token of the given kind. -/
def namesAfter (separator : Kind) : Nat → List String → Parser (List String)
  | 0, _ => fail .exhausted
  | n + 1, seen => do
    if ← eat separator then
      let name ← expectName
      namesAfter separator n (name :: seen)
    else pure seen.reverse

/-- Names with commas between them. -/
def nameList (n : Nat) : Parser (List String) := do
  let first ← expectName
  namesAfter (.symbol .comma) n [first]

/-- Parameters up to the closing parenthesis; `...` ends them and makes the function take any number
of arguments. -/
def parameters : Nat → List String → Parser (List String × Bool)
  | 0, _ => fail .exhausted
  | n + 1, seen => do
    if ← eat (.symbol .dotDotDot) then pure (seen.reverse, true)
    else
      let name ← expectName
      if ← eat (.symbol .comma) then parameters n (name :: seen)
      else pure ((name :: seen).reverse, false)

/-- The parenthesised parameter list of a function. -/
def parameterList (n : Nat) : Parser (List String × Bool) := do
  expect (.symbol .leftParen)
  let params ← if (← peek) = .symbol .rightParen then pure ([], false) else parameters n []
  expect (.symbol .rightParen)
  pure params

/-- The name in a function statement. -/
def functionName (n : Nat) : Parser FunctionName := do
  let root ← expectName
  let fields ← namesAfter (.symbol .dot) n []
  let method ← if ← eat (.symbol .colon) then some <$> expectName else pure none
  pure ⟨root, fields, method⟩

mutual
def block : Nat → Parser Block
  | 0 => fail .exhausted
  | n + 1 => do
    let line ← line
    let (stmts, ret) ← statements n []
    pure ⟨stmts, ret, line⟩

/-- The statements of a block, after those seen already, and its return. -/
def statements : Nat → List Stmt → Parser (List Stmt × Option Return)
  | 0, _ => fail .exhausted
  | n + 1, seen => do
    skipSemicolons
    let kind ← peek
    if kind = .keyword .return_ then
      let ret ← returnStatement n
      pure (seen.reverse, some ret)
    else if endsBlock kind then pure (seen.reverse, none)
    else
      let stmt ← statement n
      statements n (stmt :: seen)

def returnStatement : Nat → Parser Return
  | 0 => fail .exhausted
  | n + 1 => do
    let line ← line
    expect (.keyword .return_)
    let kind ← peek
    let values ←
      if endsBlock kind ∨ kind = .symbol .semicolon then pure [] else expressions n
    let _ ← eat (.symbol .semicolon)
    if endsBlock (← peek) then pure ⟨values, line⟩ else fail .returnNotLast

def statement : Nat → Parser Stmt
  | 0 => fail .exhausted
  | n + 1 => do
    let line ← line
    match ← peek with
    | .keyword .if_ =>
      advance
      let clause ← conditional n
      let (clauses, otherwise) ← moreClauses n [clause]
      expect (.keyword .end_)
      pure (.if clauses otherwise line)
    | .keyword .while_ =>
      advance
      let cond ← expression n 0
      let body ← loopBody n
      pure (.while cond body line)
    | .keyword .do_ =>
      let body ← loopBody n
      pure (.block body)
    | .keyword .for_ =>
      advance
      let first ← expectName
      if ← eat (.symbol .assign) then numericFor n first line else genericFor n first line
    | .keyword .repeat_ =>
      advance
      let body ← block n
      expect (.keyword .until_)
      let cond ← expression n 0
      pure (.repeat body cond line)
    | .keyword .function_ =>
      advance
      let name ← functionName n
      let body ← functionBody n (if name.method.isSome then ["self"] else []) line
      pure (.function name body line)
    | .keyword .local_ =>
      advance
      if ← eat (.keyword .function_) then
        let name ← expectName
        let body ← functionBody n [] line
        pure (.localFunction name body line)
      else
        let names ← nameList n
        let values ← if ← eat (.symbol .assign) then expressions n else pure []
        pure (.local names values line)
    | .keyword .break_ =>
      advance
      pure (.break line)
    | _ => expressionStatement n line

/-- A condition, `then`, and the block it guards. -/
def conditional : Nat → Parser Clause
  | 0 => fail .exhausted
  | n + 1 => do
    let cond ← expression n 0
    expect (.keyword .then_)
    let body ← block n
    pure ⟨cond, body⟩

/-- The other clauses of an if statement. -/
def moreClauses : Nat → List Clause → Parser (List Clause × Option Block)
  | 0, _ => fail .exhausted
  | n + 1, seen => do
    if ← eat (.keyword .elseif_) then
      let clause ← conditional n
      moreClauses n (clause :: seen)
    else if ← eat (.keyword .else_) then
      let body ← block n
      pure (seen.reverse, some body)
    else pure (seen.reverse, none)

/-- A block between `do` and `end`. -/
def loopBody : Nat → Parser Block
  | 0 => fail .exhausted
  | n + 1 => do
    expect (.keyword .do_)
    let body ← block n
    expect (.keyword .end_)
    pure body

/-- A numeric loop, after the `=` that follows its variable. -/
def numericFor : Nat → String → Nat → Parser Stmt
  | 0, _, _ => fail .exhausted
  | n + 1, var, line => do
    let start ← expression n 0
    expect (.symbol .comma)
    let limit ← expression n 0
    let step ← if ← eat (.symbol .comma) then some <$> expression n 0 else pure none
    let body ← loopBody n
    pure (.numericFor var start limit step body line)

/-- A generic loop, after its first variable. -/
def genericFor : Nat → String → Nat → Parser Stmt
  | 0, _, _ => fail .exhausted
  | n + 1, first, line => do
    let names ← namesAfter (.symbol .comma) n [first]
    expect (.keyword .in_)
    let values ← expressions n
    let body ← loopBody n
    pure (.genericFor names values body line)

/-- An assignment or a call. -/
def expressionStatement : Nat → Nat → Parser Stmt
  | 0, _ => fail .exhausted
  | n + 1, line => do
    let first ← suffixed n
    let kind ← peek
    if kind = .symbol .assign ∨ kind = .symbol .comma then
      let targets ← moreTargets n [first]
      match targets.find? fun target => !target.isAssignable with
      | some bad => throw ⟨bad.line, 0, .notAssignable⟩
      | none =>
        expect (.symbol .assign)
        let values ← expressions n
        pure (.assign targets values line)
    else if first.isCall then pure (.call first)
    else fail .notStatement

/-- The other targets of an assignment, each after a comma. -/
def moreTargets : Nat → List Expr → Parser (List Expr)
  | 0, _ => fail .exhausted
  | n + 1, seen => do
    if ← eat (.symbol .comma) then
      let target ← suffixed n
      moreTargets n (target :: seen)
    else pure seen.reverse

/-- The parameters and the body of a function; `first` are parameters it has before the written ones. -/
def functionBody : Nat → List String → Nat → Parser FunctionBody
  | 0, _, _ => fail .exhausted
  | n + 1, first, line => do
    let (params, isVararg) ← parameterList n
    let body ← block n
    expect (.keyword .end_)
    pure ⟨first ++ params, isVararg, body, line⟩

/-- One or more expressions with commas between them. -/
def expressions : Nat → Parser (List Expr)
  | 0 => fail .exhausted
  | n + 1 => do
    let first ← expression n 0
    moreExpressions n [first]

/-- The other expressions of a list, each after a comma. -/
def moreExpressions : Nat → List Expr → Parser (List Expr)
  | 0, _ => fail .exhausted
  | n + 1, seen => do
    if ← eat (.symbol .comma) then
      let value ← expression n 0
      moreExpressions n (value :: seen)
    else pure seen.reverse

/-- An expression whose operators outside operands bind more strongly than `power`. -/
def expression : Nat → Nat → Parser Expr
  | 0, _ => fail .exhausted
  | n + 1, power => do
    let first ← operand n
    moreOperands n power first

/-- Extends `lhs` by the binary operators that follow and bind more strongly than `power`. -/
def moreOperands : Nat → Nat → Expr → Parser Expr
  | 0, _, _ => fail .exhausted
  | n + 1, power, lhs => do
    match binaryOp? (← peek) with
    | some (op, left, right) =>
      if left ≤ power then pure lhs
      else
        let line ← line
        advance
        let rhs ← expression n right
        moreOperands n power (.binary op lhs rhs line)
    | none => pure lhs

/-- An operand of a binary operator. -/
def operand : Nat → Parser Expr
  | 0 => fail .exhausted
  | n + 1 => do
    let line ← line
    match unaryOp? (← peek) with
    | some op =>
      advance
      let inner ← expression n unaryPower
      pure (.unary op inner line)
    | none => simple n

/-- An expression without operators outside brackets. -/
def simple : Nat → Parser Expr
  | 0 => fail .exhausted
  | n + 1 => do
    let line ← line
    let kind ← peek
    match literal? kind line with
    | some value =>
      advance
      pure value
    | none =>
      if kind = .keyword .function_ then
        advance
        let body ← functionBody n [] line
        pure (.function body)
      else if kind = .symbol .leftBrace then tableConstructor n
      else suffixed n

/-- A name or a parenthesised expression with fields, keys and calls after it. -/
def suffixed : Nat → Parser Expr
  | 0 => fail .exhausted
  | n + 1 => do
    let first ← primary n
    suffixes n first

/-- Extends an expression by the suffixes that follow. -/
def suffixes : Nat → Expr → Parser Expr
  | 0, _ => fail .exhausted
  | n + 1, e => do
    let line ← line
    match ← peek with
    | .symbol .dot =>
      advance
      let name ← expectName
      suffixes n (.field e name line)
    | .symbol .leftBracket =>
      advance
      let key ← expression n 0
      expect (.symbol .rightBracket)
      suffixes n (.index e key line)
    | .symbol .colon =>
      advance
      let method ← expectName
      let args ← arguments n
      suffixes n (.methodCall e method args line)
    | .symbol .leftParen | .symbol .leftBrace | .string _ =>
      let args ← arguments n
      suffixes n (.call e args line)
    | _ => pure e

def primary : Nat → Parser Expr
  | 0 => fail .exhausted
  | n + 1 => do
    let line ← line
    match ← peek with
    | .name name =>
      advance
      pure (.name name line)
    | .symbol .leftParen =>
      advance
      let inner ← expression n 0
      expect (.symbol .rightParen)
      pure (.paren inner line)
    | got => fail (.unexpectedSymbol got)

/-- The arguments of a call: a parenthesised list, a table constructor or a string. -/
def arguments : Nat → Parser (List Expr)
  | 0 => fail .exhausted
  | n + 1 => do
    let line ← line
    match ← peek with
    | .symbol .leftParen =>
      advance
      if ← eat (.symbol .rightParen) then pure []
      else
        let args ← expressions n
        expect (.symbol .rightParen)
        pure args
    | .symbol .leftBrace =>
      let table ← tableConstructor n
      pure [table]
    | .string s =>
      advance
      pure [.string s line]
    | got => fail (.expectedArguments got)

def tableConstructor : Nat → Parser Expr
  | 0 => fail .exhausted
  | n + 1 => do
    let line ← line
    expect (.symbol .leftBrace)
    let fields ← tableFields n []
    expect (.symbol .rightBrace)
    pure (.table fields line)

/-- The fields of a table constructor, after those seen already. -/
def tableFields : Nat → List TableField → Parser (List TableField)
  | 0, _ => fail .exhausted
  | n + 1, seen => do
    if (← peek) = .symbol .rightBrace then pure seen.reverse
    else
      let field ← tableField n
      if ← eat (.symbol .comma) then tableFields n (field :: seen)
      else if ← eat (.symbol .semicolon) then tableFields n (field :: seen)
      else pure (field :: seen).reverse

def tableField : Nat → Parser TableField
  | 0 => fail .exhausted
  | n + 1 => do
    match ← peek, ← peekSecond with
    | .symbol .leftBracket, _ =>
      advance
      let key ← expression n 0
      expect (.symbol .rightBracket)
      expect (.symbol .assign)
      let value ← expression n 0
      pure (.keyed key value)
    | .name name, .symbol .assign =>
      advance
      advance
      let value ← expression n 0
      pure (.named name value)
    | _, _ =>
      let value ← expression n 0
      pure (.positional value)
end

/-- A whole chunk: a block and the end of the text. -/
def chunk (n : Nat) : Parser Block := do
  let body ← block n
  expect .eof
  pure body

/-- The program that tokens spell. -/
def parseTokens (tokens : List Token) : Except SourceError Block :=
  (chunk (16 * tokens.length + 16)).run' tokens

/-- The program that a source text spells. -/
def parse (source : String) : Except SourceError Block := do
  let tokens ← Lexer.tokens source
  parseTokens tokens.toList

end Parser

end ScriptEngine
