import ScriptEngine.Compiler.Emit
import ScriptEngine.Parser

/-!
# From the abstract program to units

Every function body becomes a unit of its own. Expressions leave their values on the stack; a block
releases its locals at its end, and `break`, `return` and loops release what lies between them and
their destination. Assignments evaluate their targets' tables and keys, then the values, and store
from the last target to the first.
-/

namespace ScriptEngine.Compiler

/-- The line that a statement is compiled at. -/
def stmtLine : Stmt → Nat
  | .local _ _ line | .localFunction _ _ line | .assign _ _ line | .while _ _ line => line
  | .repeat _ _ line | .if _ _ line | .numericFor _ _ _ _ _ line | .genericFor _ _ _ line => line
  | .function _ _ line | .break line => line
  | .call e => e.line
  | .block b => b.line

/-- A target of an assignment once its table and key have been evaluated. -/
inductive Place where
  | variable (name : String)
  /-- A table in a slot, with the key in the slot above it. -/
  | entry (slot : Nat)

/-- Pops the top value into a target. -/
def store : Place → Compiler Unit
  | .variable name => writeVar name
  | .entry slot => do
    getSlot slot
    getSlot (slot + 1)
    emit .getStack 3 0
    emit .putTable 0 0
    pop 1

/-- The instruction of an operator that evaluates both operands, and whether its result is negated. -/
def binaryOpcode : BinaryOp → Opcode × Bool
  | .add => (.add, false)
  | .sub => (.sub, false)
  | .mul => (.mul, false)
  | .div => (.div, false)
  | .mod => (.mod, false)
  | .pow => (.pow, false)
  | .concat => (.concat, false)
  | .eq => (.eq, false)
  | .notEq => (.eq, true)
  | .lt => (.less, false)
  | .ltEq => (.lessEq, false)
  | .gt => (.lessEq, true)
  | .gtEq => (.less, true)
  | .and => (.and, false)
  | .or => (.or, false)

def unaryOpcode : UnaryOp → Opcode
  | .neg => .neg
  | .not => .not
  | .len => .len

/-- A binary operator on the values that `lhs` and `rhs` push; `and` and `or` push the second one only
if the first does not settle the result. -/
def binary (op : BinaryOp) (lhs rhs : Compiler Unit) : Compiler Unit := do
  match op with
  | .and =>
    let takeRhs ← newLabel
    let done ← newLabel
    lhs
    emitJump .jmpTrue true takeRhs
    emitJump .jmp false done
    placeLabel takeRhs
    pop 1
    rhs
    placeLabel done
  | .or =>
    let done ← newLabel
    lhs
    emitJump .jmpTrue true done
    pop 1
    rhs
    placeLabel done
  | _ =>
    lhs
    rhs
    let (opcode, negated) := binaryOpcode op
    emit opcode 0 0
    if negated then emit .not 0 0

/-- The guard of a numeric loop: `0 < step and v <= limit or step < 0 and limit <= v`. -/
def loopGuard (v limit step : Nat) : Compiler Unit := do
  loadConstant (.number 0.0)
  getSlot step
  emit .less 0 0
  getSlot v
  getSlot limit
  emit .lessEq 0 0
  emit .and 0 0
  getSlot step
  loadConstant (.number 0.0)
  emit .less 0 0
  getSlot limit
  getSlot v
  emit .lessEq 0 0
  emit .and 0 0
  emit .or 0 0

/-- Pushes the table that a function statement stores into: the root variable, then the fields. -/
def readPath (root : String) (fields : List String) : Compiler Unit := do
  readVar root
  fields.forM fun field => do
    loadConstant (.string field)
    emit .getTable 0 0

/-- The fields on the way to where a function statement stores, and the key it stores under; none if it
stores in a variable. -/
def storePath? (name : FunctionName) : Option (List String × String) :=
  match name.method with
  | some method => some (name.fields, method)
  | none => name.fields.getLast?.map fun key => (name.fields.dropLast, key)

mutual
/-- An expression in the wanted number of slots. -/
def compileExpr (e : Expr) (arity : Arity) : Compiler Unit := do
  setLine e.line
  match e with
  | .call callee args line =>
    compileExpr callee (.fixed 1)
    compileMultiList args
    setLine line
    finishCall args.length arity
  | .methodCall object method args line =>
    compileExpr object (.fixed 1)
    emit .getStack 1 0
    loadConstant (.string method)
    emit .getTable 0 0
    -- the object and its method change places
    emit .getStack 1 0
    emit .getStack 3 0
    emit .putStack 3 0
    emit .putStack 3 0
    compileMultiList args
    setLine line
    finishCall (args.length + 1) arity
  | .varargs line =>
    if (← get).builder.isVararg then
      getSlot 0
      adjustMulti arity
    else throw (.source ⟨line, 0, .varargsOutsideFunction⟩)
  | .nil _ =>
    loadConstant .nil
    adjustSingle arity
  | .boolean b _ =>
    loadConstant (.boolean b)
    adjustSingle arity
  | .number n _ =>
    loadConstant (.number n)
    adjustSingle arity
  | .string s _ =>
    loadConstant (.string s)
    adjustSingle arity
  | .name name _ =>
    readVar name
    adjustSingle arity
  | .paren inner _ =>
    compileExpr inner (.fixed 1)
    adjustSingle arity
  | .unary op operand _ =>
    compileExpr operand (.fixed 1)
    emit (unaryOpcode op) 0 0
    adjustSingle arity
  | .binary op lhs rhs _ =>
    binary op (compileExpr lhs (.fixed 1)) (compileExpr rhs (.fixed 1))
    adjustSingle arity
  | .index table key _ =>
    compileExpr table (.fixed 1)
    compileExpr key (.fixed 1)
    emit .getTable 0 0
    adjustSingle arity
  | .field table name _ =>
    compileExpr table (.fixed 1)
    loadConstant (.string name)
    emit .getTable 0 0
    adjustSingle arity
  | .function body =>
    compileFunction body "anonymous"
    adjustSingle arity
  | .table fields _ =>
    emit .newTable 0 0
    compileFields 1 fields
    adjustSingle arity

/-- Exactly `count` slots: what is too much is evaluated and dropped, what is missing is `nil`, and
only the last expression may give several values. -/
def compileValues (count : Nat) : List Expr → Compiler Unit
  | [] => loadNil count
  | [e] => compileExpr e (.fixed count)
  | e :: f :: rest => do
    compileExpr e (.fixed (min count 1))
    compileValues (count - 1) (f :: rest)

/-- One slot for each expression, the last of them perhaps with a multi-value. -/
def compileMultiList : List Expr → Compiler Unit
  | [] => pure ()
  | [e] => compileExpr e .multi
  | e :: f :: rest => do
    compileExpr e (.fixed 1)
    compileMultiList (f :: rest)

/-- The fields of a table constructor into the table on top; `position` is the next key of a
positional one. A last one that can give several values fills the keys that follow. -/
def compileFields (position : Nat) : List TableField → Compiler Unit
  | [] => pure ()
  | .positional value :: rest => do
    emit .getStack 1 0
    loadConstant (.number (Float.ofNat position))
    compileExpr value (if rest.isEmpty && value.isMulti then .multi else .fixed 1)
    emit .putTable 0 0
    compileFields (position + 1) rest
  | .named name value :: rest => do
    emit .getStack 1 0
    loadConstant (.string name)
    compileExpr value (.fixed 1)
    emit .putTable 0 0
    compileFields position rest
  | .keyed key value :: rest => do
    emit .getStack 1 0
    compileExpr key (.fixed 1)
    compileExpr value (.fixed 1)
    emit .putTable 0 0
    compileFields position rest

/-- A function: its body becomes a nested unit, and a closure of it is pushed. -/
def compileFunction (f : FunctionBody) (name : String) : Compiler Unit :=
  match f with
  | ⟨params, isVararg, body, line⟩ => do
    let s ← get
    let id := s.nextId
    if 65535 ≤ id then throw .tooManyFunctions
    if 255 < params.length then throw .tooManyParameters
    let compileBody : Compiler Unit := do
      -- the argument list gives up one closed slot for each parameter
      if !params.isEmpty then
        emit .popVarArgs params.length 0
        bindLocals params
      compileStatements none body
      emit .ret 0 0
    let start := { s with nextId := id + 1 }.child name id line params.length isVararg
    let ((), child) ← compileBody.run start
    let unit ← child.builder.finish child.id child.name child.source
    set { s with nextId := child.nextId, builder := s.builder.addChild unit }
    emit .closure id 0

/-- The table and the key of a target that is not a name. -/
def compilePlace : Expr → Compiler Unit
  | .index table key _ => do
    compileExpr table (.fixed 1)
    compileExpr key (.fixed 1)
  | .field table name _ => do
    compileExpr table (.fixed 1)
    loadConstant (.string name)
  | _ => throw .notAssignable

/-- The targets of an assignment in order, with their tables and keys on the stack. -/
def compileTargets : List Expr → Compiler (List Place)
  | [] => pure []
  | .name name _ :: rest => do
    let places ← compileTargets rest
    pure (.variable name :: places)
  | target :: rest => do
    compilePlace target
    let slot := (← get).depth - 2
    let places ← compileTargets rest
    pure (.entry slot :: places)

/-- A statement; `exit` is where a `break` in it leads. -/
def compileStmt (exit : Option LoopExit) (stmt : Stmt) : Compiler Unit := do
  setLine (stmtLine stmt)
  match stmt with
  | .local names values _ =>
    compileValues names.length values
    bindLocals names
  | .localFunction name body _ =>
    -- declared before its body, so that the function can call itself
    loadNil 1
    bindLocals [name]
    compileFunction body name
    writeVar name
  | .assign [.name name _] values _ =>
    compileValues 1 values
    writeVar name
  | .assign [target] values _ =>
    compilePlace target
    compileValues 1 values
    emit .putTable 0 0
  | .assign targets values _ =>
    let start := (← get).depth
    let places ← compileTargets targets
    let temporaries := (← get).depth - start
    compileValues targets.length values
    places.reverse.forM store
    pop temporaries
  | .call e => compileExpr e (.fixed 0)
  | .block body => inScope (compileStatements exit body)
  | .while cond body _ =>
    let start ← newLabel
    let done ← newLabel
    placeLabel start
    compileExpr cond (.fixed 1)
    emit .not 0 0
    emitJump .jmpTrue false done
    inScope (compileStatements (some ⟨done, ← scope⟩) body)
    emitJump .jmp false start
    placeLabel done
  | .repeat body cond _ =>
    let start ← newLabel
    let exit ← newLabel
    let done ← newLabel
    placeLabel start
    let outer ← scope
    compileStatements (some ⟨exit, outer⟩) body
    -- the condition still sees the locals of the body
    compileExpr cond (.fixed 1)
    emitJump .jmpTrue false done
    jumpOut outer start
    placeLabel done
    closeScope outer
    placeLabel exit
  | .if clauses otherwise _ =>
    let done ← newLabel
    compileClauses exit done otherwise.isSome clauses
    match otherwise with
    | some body => inScope (compileStatements exit body)
    | none => pure ()
    placeLabel done
  | .numericFor var start limit step body _ =>
    let outer ← scope
    compileExpr start (.fixed 1)
    compileExpr limit (.fixed 1)
    match step with
    | some e => compileExpr e (.fixed 1)
    | none => loadConstant (.number 1.0)
    emit .forPrep 0 0
    let control ← scope
    let (v, limitSlot, stepSlot) := (control.depth - 3, control.depth - 2, control.depth - 1)
    let top ← newLabel
    let exit ← newLabel
    placeLabel top
    loopGuard v limitSlot stepSlot
    emit .not 0 0
    emitJump .jmpTrue false exit
    -- each iteration has a variable of its own, for closures to keep
    getSlot v
    bindLocals [var]
    compileStatements (some ⟨exit, control⟩) body
    closeScope control
    getSlot v
    getSlot stepSlot
    emit .add 0 0
    putSlot v
    emitJump .jmp false top
    placeLabel exit
    closeScope outer
  | .genericFor names values body _ =>
    let outer ← scope
    compileValues 3 values
    let control ← scope
    let (iterator, state, last) := (control.depth - 3, control.depth - 2, control.depth - 1)
    let top ← newLabel
    let run ← newLabel
    let exit ← newLabel
    placeLabel top
    getSlot iterator
    getSlot state
    getSlot last
    emit .call 2 names.length
    bindLocals names
    let first := (← get).depth - names.length
    getSlot first
    putSlot last
    getSlot first
    loadConstant .nil
    emit .eq 0 0
    emit .not 0 0
    emitJump .jmpTrue false run
    jumpOut control exit
    placeLabel run
    compileStatements (some ⟨exit, control⟩) body
    closeScope control
    emitJump .jmp false top
    placeLabel exit
    closeScope outer
  | .function name body _ =>
    match storePath? name with
    | none =>
      compileFunction body name.text
      writeVar name.root
    | some (path, key) =>
      readPath name.root path
      loadConstant (.string key)
      compileFunction body name.text
      emit .putTable 0 0
  | .break line =>
    match exit with
    | some e => jumpOut e.scope e.label
    | none => throw (.source ⟨line, 0, .breakOutsideLoop⟩)

/-- The clauses of an if statement. Each jumps to `done` after its block if another one or an
alternative (`more`) follows. -/
def compileClauses (exit : Option LoopExit) (done : Nat) (more : Bool) : List Clause → Compiler Unit
  | [] => pure ()
  | ⟨cond, body⟩ :: rest => do
    let next ← newLabel
    compileExpr cond (.fixed 1)
    emit .not 0 0
    emitJump .jmpTrue false next
    inScope (compileStatements exit body)
    if more || !rest.isEmpty then emitJump .jmp false done
    placeLabel next
    compileClauses exit done more rest

/-- A block in the current scope. -/
def compileStatements (exit : Option LoopExit) (body : Block) : Compiler Unit :=
  match body with
  | ⟨stmts, ret, _⟩ => do
    compileStmts exit stmts
    match ret with
    | some ⟨values, line⟩ =>
      leaving do
        setLine line
        compileMultiList values
        setLine line
        let s ← get
        if s.upvalueCount < s.closed then emit .popClosed (s.closed - s.upvalueCount) 0
        emit .ret values.length 0
    | none => pure ()

def compileStmts (exit : Option LoopExit) : List Stmt → Compiler Unit
  | [] => pure ()
  | stmt :: rest => do
    compileStmt exit stmt
    compileStmts exit rest
end

/-- The root unit of a chunk, which takes any number of arguments. -/
def compile (source : String) (body : Block) : Except CompileError CodeUnit := do
  let compileBody : Compiler Unit := do
    compileStatements none body
    emit .ret 0 0
  let ((), s) ← compileBody.run (.root source)
  let unit ← s.builder.finish s.id s.name s.source
  (Verifier.verify unit).mapError .verification
  pure unit

/-- Reads and compiles a source text as the chunk with the given label. -/
def compileSource (text label : String) : Except Fault CodeUnit := do
  let body ← (Parser.parse text).mapError SourceError.toFault
  (compile label body).mapError CompileError.toFault

end ScriptEngine.Compiler
