import ScriptEngine.Number.Text
import ScriptEngine.Text.Columns

/-!
# Values of the language

Tables, closures and cells live in a store and are named by their position there; coroutines are named
by the position of their thread. A multi-value is a list in flight: call results, the arguments of a
call, the extra arguments of a function. It is a value only so that it can stand in a stack slot.
-/

namespace ScriptEngine

/-- Functions that work on the machine itself instead of returning results. -/
inductive CoreFunction where
  | pcall
  | create
  | resume
  | yield
  | status
  | dostring
  deriving DecidableEq, Hashable

def CoreFunction.name : CoreFunction → String
  | pcall => "pcall"
  | create => "coroutine.create"
  | resume => "coroutine.resume"
  | yield => "coroutine.yield"
  | status => "coroutine.status"
  | dostring => "dostring"

inductive Value where
  | nil
  | boolean (b : Bool)
  | number (n : Float)
  | string (s : String)
  | table (id : Nat)
  | closure (id : Nat)
  | core (f : CoreFunction)
  /-- A function supplied by the host, under the name it was registered with. -/
  | host (id : Nat) (name : String)
  | thread (id : Nat)
  | multi (values : List Value)
  deriving Inhabited

namespace Value

mutual
/-- The language's equality: numbers by value, strings by content, everything that lives in a store
by identity. -/
def equal : Value → Value → Bool
  | nil, nil => true
  | boolean a, boolean b => a == b
  | number a, number b => a == b
  | string a, string b => a == b
  | table a, table b => a == b
  | closure a, closure b => a == b
  | core a, core b => a == b
  | host a _, host b _ => a == b
  | thread a, thread b => a == b
  | multi as, multi bs => equalLists as bs
  | _, _ => false

def equalLists : List Value → List Value → Bool
  | [], [] => true
  | a :: as, b :: bs => equal a b && equalLists as bs
  | _, _ => false
end

instance : BEq Value := ⟨equal⟩

/-- The name of a value's type as scripts see it. -/
def typeName : Value → String
  | nil => "nil"
  | boolean _ => "boolean"
  | number _ => "number"
  | string _ => "string"
  | table _ => "table"
  | closure _ | core _ | host _ _ => "function"
  | thread _ => "thread"
  | multi _ => "varargs"

/-- Only `nil` and `false` are not truthy. -/
def isTruthy : Value → Bool
  | nil | boolean false => false
  | _ => true

def isNil : Value → Bool
  | nil => true
  | _ => false

def number? : Value → Option Float
  | number n => some n
  | _ => none

def string? : Value → Option String
  | string s => some s
  | _ => none

/-- The first value of a multi-value; other values stand for themselves. -/
def first : Value → Value
  | multi [] => nil
  | multi (v :: _) => v
  | v => v

/-- The values that a slot contributes to a list. -/
def spread : Value → List Value
  | multi vs => vs
  | v => [v]

/-- The place of something in a store, as scripts see it. -/
def address (id : Nat) : String := "0x" ++ Text.hexDigits id

mutual
/-- The text of a value as scripts see it. -/
def text : Value → String
  | nil => "nil"
  | boolean b => if b then "true" else "false"
  | number n => Number.text n
  | string s => s
  | table id => "table: " ++ address id
  | closure id => "function: " ++ address id
  | core f => "function: builtin: " ++ f.name
  | host _ name => "function: builtin: " ++ name
  | thread id => "thread: " ++ toString id
  | multi vs => tabbed vs

/-- The texts of several values with tabs between them. -/
def tabbed : List Value → String
  | [] => ""
  | v :: rest => appendTabbed (text v) rest

/-- `done` and the texts of several values, a tab before each. -/
def appendTabbed (done : String) : List Value → String
  | [] => done
  | v :: rest => appendTabbed (done ++ "\t" ++ text v) rest
end

/-- The first `n` values, with `nil` for those that are missing. -/
def adjust (n : Nat) (vs : List Value) : List Value :=
  vs.take n ++ List.replicate (n - vs.length) nil

/-- Argument `i`, counted from 1, or `nil`. -/
def argument (args : List Value) (i : Nat) : Value := (args[i - 1]?).getD nil

end Value

end ScriptEngine
