import Mathlib
import ScriptEngine.Ast
import ScriptEngine.Operator
import ScriptEngine.Store

/-!
# What a program without calls means

A second reading of programs, without instructions and without a stack: names lead to variables through
a lexical environment, every executed declaration makes a variable of its own, and a statement ends by
going on, by a `break` or by a `return`. It covers the programs that call nothing (`isCallFree`), on
tables without metatables.

A loop has an allowance of rounds, the same for all loops of a program; an evaluation for which it does
not suffice gives nothing, and an evaluation ends if some allowance suffices.
-/

set_option linter.dupNamespace false

namespace ScriptEngine

/-- What a program without calls can change. -/
structure World where
  globals : Std.HashMap String Value
  tables : Array Table
  /-- The contents of all variables that were ever declared, by their addresses. -/
  memory : Array Value := #[]

/-- The variables in scope, the innermost first. -/
abbrev Environment := List (String × Nat)

/-- A computation on a world that may fail and that may find its allowance too small. -/
abbrev Evaluation := ExceptT Fault (StateT World Option)

namespace World

def table (w : World) (id : Nat) : Table := (w.tables[id]?).getD {}

/-- The value of a global, or `nil`. -/
def global (w : World) (name : String) : Value := w.globals.getD name .nil

/-- Gives a global a value; `nil` removes it. -/
def setGlobal (w : World) (name : String) (v : Value) : World :=
  { w with globals := if v.isNil then w.globals.erase name else w.globals.insert name v }

def contents (w : World) (address : Nat) : Value := (w.memory[address]?).getD .nil

def setContents (w : World) (address : Nat) (v : Value) : World :=
  { w with memory := w.memory.setIfInBounds address v }

/-- A variable that was never used before. -/
def newVariable (w : World) (v : Value) : World := { w with memory := w.memory.push v }

end World

namespace Evaluation

/-- What an evaluation comes to in a world, unless its allowance is too small. -/
def outcome {α : Type} (x : Evaluation α) (w : World) : Option (Except Fault α × World) :=
  x.run.run w

/-- The evaluation that never ends. -/
def endless {α : Type} : Evaluation α := fun _ => none

/-- Repeats `round` on a state until it gives a result, for at most the given number of rounds. -/
def loop {σ α : Type} (round : σ → Evaluation (σ ⊕ α)) : Nat → σ → Evaluation α
  | 0, _ => endless
  | n + 1, state => do
    match ← round state with
    | .inl next => loop round n next
    | .inr result => pure result

/-! ## Variables -/

def read (env : Environment) (name : String) : Evaluation Value := do
  match env.lookup name with
  | some address => return (← get).contents address
  | none => return (← get).global name

def write (env : Environment) (name : String) (v : Value) : Evaluation Unit :=
  match env.lookup name with
  | some address => modify (·.setContents address v)
  | none => modify (·.setGlobal name v)

/-- Declares names one after another, each with a variable of its own. -/
def declare (env : Environment) : List String → List Value → Evaluation Environment
  | name :: names, v :: vs => do
    let w ← get
    set (w.newVariable v)
    declare ((name, w.memory.size) :: env) names vs
  | _, _ => pure env

/-! ## Operators -/

def negate (v : Value) : Evaluation Value :=
  match v.number? with
  | some n => pure (.number (-n))
  | none => throw (.arithmetic v.typeName)

def length (v : Value) : Evaluation Value := do
  let w ← get
  match v with
  | .string s => pure (.number (Float.ofNat s.utf8ByteSize))
  | .table id => pure (.number (Float.ofNat (w.table id).length))
  | _ => throw (.length v.typeName)

def unary (op : UnaryOp) (v : Value) : Evaluation Value :=
  match op with
  | .neg => negate v
  | .not => pure (.boolean !v.isTruthy)
  | .len => length v

def arithmetic (op : Arithmetic) (lhs rhs : Value) : Evaluation Value :=
  match lhs.number?, rhs.number? with
  | some x, some y => pure (.number (op.apply x y))
  | some _, none => throw (.arithmetic rhs.typeName)
  | none, _ => throw (.arithmetic lhs.typeName)

def concat (lhs rhs : Value) : Evaluation Value :=
  match lhs.piece?, rhs.piece? with
  | some x, some y => pure (.string (x ++ y))
  | some _, none => throw (.concat rhs.typeName)
  | none, _ => throw (.concat lhs.typeName)

def compare (test : Value → Value → Option Bool) (lhs rhs : Value) : Evaluation Value :=
  match test lhs rhs with
  | some result => pure (.boolean result)
  | none => throw (.compare lhs.typeName rhs.typeName)

/-- An operator on the values of both operands. `>` and `>=` are what `<=` and `<` are not. -/
def binary (op : BinaryOp) (lhs rhs : Value) : Evaluation Value := do
  match op with
  | .add => arithmetic .add lhs rhs
  | .sub => arithmetic .sub lhs rhs
  | .mul => arithmetic .mul lhs rhs
  | .div => arithmetic .div lhs rhs
  | .mod => arithmetic .mod lhs rhs
  | .pow => arithmetic .pow lhs rhs
  | .concat => concat lhs rhs
  | .eq => pure (.boolean (lhs == rhs))
  | .notEq => pure (.boolean !(lhs == rhs))
  | .lt => compare Value.less? lhs rhs
  | .ltEq => compare Value.lessEq? lhs rhs
  | .gt => return .boolean !(← compare Value.lessEq? lhs rhs).isTruthy
  | .gtEq => return .boolean !(← compare Value.less? lhs rhs).isTruthy
  | .and => pure (if lhs.isTruthy then rhs else lhs)
  | .or => pure (if lhs.isTruthy then lhs else rhs)

/-! ## Tables -/

def newTable : Evaluation Nat := do
  let w ← get
  set { w with tables := w.tables.push {} }
  pure w.tables.size

/-- `target[key]`; strings have the fields of the string library. -/
def index (target key : Value) : Evaluation Value := do
  let w ← get
  match target with
  | .table id => pure ((w.table id).get key)
  | .string _ =>
    match w.global "string" with
    | .table id => pure ((w.table id).get key)
    | _ => throw (.index "string")
  | _ => throw (.index target.typeName)

/-- Writes into a table; what cannot be a key is refused and changes nothing. -/
def put (id : Nat) (key value : Value) : Evaluation Unit :=
  match Key.ofValue key with
  | .ok k => modify fun w => { w with tables := w.tables.modify id (·.assign k key value) }
  | .error fault => throw fault

/-- Writes values under consecutive keys. -/
def putFrom (id : Nat) (start : Float) (offset : Nat) : List Value → Evaluation Unit
  | [] => pure ()
  | v :: rest => do
    put id (.number (start + Float.ofNat offset)) v
    putFrom id start (offset + 1) rest

/-- `target[key] = value`; a multi-value under a number fills the keys from there on. -/
def store (target key value : Value) : Evaluation Unit :=
  match target, key, value with
  | .table id, .number start, .multi vs => putFrom id start 0 vs
  | .table id, _, _ => put id key value.first
  | _, _, _ => throw (.index target.typeName)

end Evaluation

/-! ## Expressions -/

open Evaluation

mutual
/-- Whether an expression calls nothing and makes no function. -/
def Expr.isCallFree : Expr → Bool
  | .nil _ | .boolean .. | .number .. | .string .. | .name .. => true
  | .paren e _ | .unary _ e _ | .field e _ _ => e.isCallFree
  | .binary _ lhs rhs _ => lhs.isCallFree && rhs.isCallFree
  | .index table key _ => table.isCallFree && key.isCallFree
  | .table fields _ => fieldsAreCallFree fields
  | .varargs _ | .call .. | .methodCall .. | .function _ => false

def fieldsAreCallFree : List TableField → Bool
  | [] => true
  | .positional value :: rest => value.isCallFree && fieldsAreCallFree rest
  | .named _ value :: rest => value.isCallFree && fieldsAreCallFree rest
  | .keyed key value :: rest => key.isCallFree && value.isCallFree && fieldsAreCallFree rest
end

mutual
/-- The value of an expression; operands are evaluated from left to right. -/
def Expr.eval (env : Environment) : Expr → Evaluation Value
  | .nil _ => pure .nil
  | .boolean b _ => pure (.boolean b)
  | .number n _ => pure (.number n)
  | .string s _ => pure (.string s)
  | .name name _ => read env name
  | .paren inner _ => inner.eval env
  | .unary op operand _ => do unary op (← operand.eval env)
  | .binary .and lhs rhs _ => do
    let v ← lhs.eval env
    if v.isTruthy then rhs.eval env else pure v
  | .binary .or lhs rhs _ => do
    let v ← lhs.eval env
    if v.isTruthy then pure v else rhs.eval env
  | .binary op lhs rhs _ => do
    let v ← lhs.eval env
    binary op v (← rhs.eval env)
  | .index table key _ => do
    let target ← table.eval env
    index target (← key.eval env)
  | .field table name _ => do index (← table.eval env) (.string name)
  | .table fields _ => do
    let id ← newTable
    evalFields env (.table id) 1 fields
    pure (.table id)
  | .varargs _ | .call .. | .methodCall .. | .function _ => endless

/-- Fills a table; `position` is the key of the next positional field. -/
def evalFields (env : Environment) (table : Value) (position : Nat) : List TableField → Evaluation Unit
  | [] => pure ()
  | .positional value :: rest => do
    store table (.number (Float.ofNat position)) (← value.eval env)
    evalFields env table (position + 1) rest
  | .named name value :: rest => do
    store table (.string name) (← value.eval env)
    evalFields env table position rest
  | .keyed key value :: rest => do
    let k ← key.eval env
    store table k (← value.eval env)
    evalFields env table position rest
end

/-- The values of several expressions. -/
def evalAll (env : Environment) : List Expr → Evaluation (List Value)
  | [] => pure []
  | e :: rest => do
    let v ← e.eval env
    return v :: (← evalAll env rest)

/-! ## Statements -/

/-- How a statement ends. -/
inductive Exit where
  /-- What follows runs in the given environment. -/
  | next (env : Environment)
  | break
  | return (results : List Value)

/-- Where an assignment stores. -/
inductive Target where
  | variable (name : String)
  | entry (table key : Value)

def Target.assign (env : Environment) : Target → Value → Evaluation Unit
  | .variable name, v => write env name v
  | .entry table key, v => store table key v

def Expr.evalTarget (env : Environment) : Expr → Evaluation Target
  | .name x _ => pure (.variable x)
  | .index t k _ => do
    let target ← t.eval env
    return .entry target (← k.eval env)
  | .field t x _ => return .entry (← t.eval env) (.string x)
  | _ => endless

def evalTargets (env : Environment) : List Expr → Evaluation (List Target)
  | [] => pure []
  | e :: rest => do
    let target ← e.evalTarget env
    return target :: (← evalTargets env rest)

/-- Stores values into targets, from the last target to the first. -/
def assignAll (env : Environment) : List Target → List Value → Evaluation Unit
  | target :: targets, v :: vs => do
    assignAll env targets vs
    target.assign env v
  | _, _ => pure ()

/-- A control value of a numeric loop. -/
def Evaluation.control (v : Value) (message : String) : Evaluation Float :=
  match v.coerce? with
  | some n => pure n
  | none => throw (.forLoop message)

/-- The numbers that control a numeric loop. -/
def Evaluation.prepare (start limit step : Value) : Evaluation (Float × Float × Float) := do
  let start ← control start "initial value must be a number"
  let limit ← control limit "limit must be a number"
  let step ← control step "step must be a number"
  if step == 0.0 then throw (.forLoop "step is zero")
  return (start, limit, step)

/-- Whether a numeric loop runs another round. -/
def inRange (v limit step : Float) : Bool :=
  decide (0.0 < step) && decide (v ≤ limit) || decide (step < 0.0) && decide (limit ≤ v)

/-- What the end of a loop's body means for the loop, which goes on with `state`. -/
def Exit.ofRound {σ : Type} (env : Environment) (state : σ) : Exit → σ ⊕ Exit
  | .next _ => .inl state
  | .break => .inr (.next env)
  | .return results => .inr (.return results)

/-- A scope ends with its block. -/
def Exit.outside (env : Environment) : Exit → Exit
  | .next _ => .next env
  | exit => exit

mutual
def Stmt.isCallFree : Stmt → Bool
  | .local _ values _ => values.all Expr.isCallFree
  | .assign targets values _ => targets.all Expr.isCallFree && values.all Expr.isCallFree
  | .block body => body.isCallFree
  | .while cond body _ | .repeat body cond _ => cond.isCallFree && body.isCallFree
  | .if clauses otherwise _ => clausesAreCallFree clauses &&
    match otherwise with
    | some body => body.isCallFree
    | none => true
  | .numericFor _ start limit step body _ =>
    start.isCallFree && limit.isCallFree && step.all Expr.isCallFree && body.isCallFree
  | .break _ => true
  | .localFunction .. | .call _ | .genericFor .. | .function .. => false

def clausesAreCallFree : List Clause → Bool
  | [] => true
  | ⟨cond, body⟩ :: rest => cond.isCallFree && body.isCallFree && clausesAreCallFree rest

/-- Whether nothing in a block calls or makes a function. -/
def Block.isCallFree : Block → Bool
  | ⟨stmts, ret, _⟩ => stmtsAreCallFree stmts &&
    match ret with
    | some ⟨values, _⟩ => values.all Expr.isCallFree
    | none => true

def stmtsAreCallFree : List Stmt → Bool
  | [] => true
  | stmt :: rest => stmt.isCallFree && stmtsAreCallFree rest
end

mutual
/-- Runs a statement with an allowance of `n` rounds for each loop. -/
def Stmt.eval (n : Nat) (env : Environment) : Stmt → Evaluation Exit
  | .local names values _ => do
    let vs ← evalAll env values
    return .next (← declare env names (Value.adjust names.length vs))
  | .assign targets values _ => do
    let places ← evalTargets env targets
    let vs ← evalAll env values
    assignAll env places (Value.adjust targets.length vs)
    return .next env
  | .block body => return (← body.eval n env).outside env
  | .while cond body _ =>
    loop (fun _ => do
      if (← cond.eval env).isTruthy then return (← body.eval n env).ofRound env ()
      else return .inr (.next env)) n ()
  | .repeat body cond _ =>
    loop (fun _ => do
      match ← body.eval n env with
      | .next inner =>
        -- the condition sees the variables of the body
        if (← cond.eval inner).isTruthy then return .inr (.next env) else return .inl ()
      | exit => return exit.ofRound env ()) n ()
  | .if clauses otherwise _ =>
    evalClauses n env clauses
      (match otherwise with
      | some body => do return (← body.eval n env).outside env
      | none => pure (.next env))
  | .numericFor var start limit step body _ => do
    let start ← start.eval env
    let limit ← limit.eval env
    let step ← match step with
      | some e => e.eval env
      | none => pure (.number 1.0)
    let (start, limit, step) ← prepare start limit step
    loop (fun v => do
      if inRange v limit step then
        let inner ← declare env [var] [.number v]
        return (← body.eval n inner).ofRound env (v + step)
      else return .inr (.next env)) n start
  | .break _ => pure .break
  | .localFunction .. | .call _ | .genericFor .. | .function .. => endless

/-- Runs the first clause whose condition holds, or `otherwise`. -/
def evalClauses (n : Nat) (env : Environment) : List Clause → Evaluation Exit → Evaluation Exit
  | [], otherwise => otherwise
  | ⟨cond, body⟩ :: rest, otherwise => do
    if (← cond.eval env).isTruthy then return (← body.eval n env).outside env
    else evalClauses n env rest otherwise

/-- Runs a block in the current scope. -/
def Block.eval (n : Nat) (env : Environment) : Block → Evaluation Exit
  | ⟨stmts, ret, _⟩ => do
    match ← evalStmts n env stmts with
    | .next inner =>
      match ret with
      | some ⟨values, _⟩ => return .return ((← evalAll inner values).flatMap Value.spread)
      | none => return .next inner
    | exit => return exit

def evalStmts (n : Nat) (env : Environment) : List Stmt → Evaluation Exit
  | [] => pure (.next env)
  | stmt :: rest => do
    match ← stmt.eval n env with
    | .next inner => evalStmts n inner rest
    | exit => return exit
end

/-- The results of a chunk. -/
def Block.results (n : Nat) (body : Block) : Evaluation (List Value) := do
  match ← body.eval n [] with
  | .next _ => pure []
  | .return results => pure results
  | .break => endless

end ScriptEngine
