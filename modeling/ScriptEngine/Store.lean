import ScriptEngine.CodeUnit
import ScriptEngine.Table
import ScriptEngine.Text.Quoted

/-!
# The store

What values refer to by position: the cells that hold variables and stack slots, the tables, and the
closures; and the text printed so far. Nothing is ever removed, so a position names one thing for good.
-/

namespace ScriptEngine

/-- A unit with the cells it captured. -/
structure Closure where
  unit : CodeUnit
  upvalues : Array Nat
  deriving Inhabited

structure Store where
  cells : Array Value := #[]
  tables : Array Table := #[]
  closures : Array Closure := #[]
  output : String := ""
  deriving Inhabited

namespace Store

/-- The contents of a cell. -/
def cell (s : Store) (id : Nat) : Value := (s.cells[id]?).getD .nil

def setCell (s : Store) (id : Nat) (v : Value) : Store :=
  { s with cells := s.cells.setIfInBounds id v }

/-- Makes a cell that was never used before. -/
def newCell (s : Store) (v : Value) : Nat × Store :=
  (s.cells.size, { s with cells := s.cells.push v })

def table (s : Store) (id : Nat) : Table := (s.tables[id]?).getD {}

def setTable (s : Store) (id : Nat) (t : Table) : Store :=
  { s with tables := s.tables.setIfInBounds id t }

/-- Makes an empty table. -/
def newTable (s : Store) : Nat × Store :=
  (s.tables.size, { s with tables := s.tables.push {} })

def newClosure (s : Store) (c : Closure) : Nat × Store :=
  (s.closures.size, { s with closures := s.closures.push c })

/-- The metatable of a value; only tables have one. -/
def metatable? (s : Store) : Value → Option Nat
  | .table id => (s.table id).metatable
  | _ => none

def setMetatable (s : Store) (id : Nat) (metatable : Option Nat) : Store :=
  { s with tables := s.tables.modify id ({ · with metatable }) }

/-- Writes into a table under the key that `keyValue` stands for. -/
def assign (s : Store) (id : Nat) (key : Key) (keyValue value : Value) : Store :=
  { s with tables := s.tables.modify id (·.assign key keyValue value) }

/-- The value of a key in the first of `n` tables on a prototype chain that has one, `nil` if the
chain ends before, and none if `n` tables do not suffice. -/
def chainValue? (s : Store) (key : Value) : Nat → Nat → Option Value
  | 0, _ => none
  | n + 1, id =>
    let found := (s.table id).get key
    if found.isNil then
      match (s.table id).metatable with
      | some parent => chainValue? s key n parent
      | none => some .nil
    else some found

/-- Reads a key through the prototype chain, following at most `limit` links. -/
def lookup (s : Store) (id : Nat) (key : Value) (limit : Nat) : Except Fault Value :=
  match s.chainValue? key (limit + 1) id with
  | some value => .ok value
  | none => .error (.runtime
      ("prototype chain longer than " ++ toString limit ++ " links while reading '" ++ key.text ++ "'"))

mutual
/-- The text of a value in diagnostics. -/
def debugText (s : Store) : Value → String
  | .nil => "Value::Nil"
  | .boolean b => "Value::Boolean(" ++ toString b ++ ")"
  | .number n => "Value::Number(" ++ Number.plainText n ++ ")"
  | .string t => "Value::String(" ++ Text.quoted t ++ ")"
  | .table id => "Value::Table(" ++ Value.address id ++ ")"
  | .closure id => "Value::Closure(" ++ ((s.closures[id]?).map (·.unit.name)).getD "" ++ ")"
  | .core f => "Value::NativeFunction(" ++ f.name ++ ")"
  | .host _ name => "Value::NativeFunction(" ++ name ++ ")"
  | .thread id => "Value::Thread(" ++ toString id ++ ")"
  | .multi vs => "[" ++ debugTexts s vs ++ "]"

def debugTexts (s : Store) : List Value → String
  | [] => ""
  | [v] => debugText s v
  | v :: rest => debugText s v ++ ", " ++ debugTexts s rest
end

end Store

end ScriptEngine
