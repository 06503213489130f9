import ScriptEngine.Compiler

/-!
# Names in the order of the code

What the code of a function has to do with names, read off the abstract program alone: it accesses a variable,
begins the scope of some, or makes a closure of a nested function, which has code of its own. The list of these is
in the order in which the code comes (`Block.namings`), and with each stand the names that are visible there, the
innermost first. It is what the charts of compiled code are held against.
-/

namespace ScriptEngine

/-- What the code does about names at some place. -/
inductive Naming where
  | access (name : String)
  | declare (names : List String)
  | nested (f : FunctionBody)

/-- What code does about names, with the names that are visible there, the innermost first. -/
abbrev Namings := List (Naming × List String)

/-- The names that are visible after a statement. -/
def Stmt.visible (names : List String) : Stmt → List String
  | .local declared _ _ => declared.reverse ++ names
  | .localFunction name _ _ => name :: names
  | _ => names

/-- The names that are visible at the end of a block. -/
def Block.visible (names : List String) (body : Block) : List String := body.stmts.foldl Stmt.visible names

mutual
def Expr.namings (names : List String) : Expr → Namings
  | .nil _ | .boolean _ _ | .number _ _ | .string _ _ | .varargs _ => []
  | .name name _ => [(.access name, names)]
  | .paren inner _ => inner.namings names
  | .unary _ operand _ => operand.namings names
  | .binary _ lhs rhs _ => lhs.namings names ++ rhs.namings names
  | .index table key _ => table.namings names ++ key.namings names
  | .field table _ _ => table.namings names
  | .call callee args _ => callee.namings names ++ exprsNamings names args
  | .methodCall object _ args _ => object.namings names ++ exprsNamings names args
  | .function body => [(.nested body, names)]
  | .table fields _ => fieldsNamings names fields

def exprsNamings (names : List String) : List Expr → Namings
  | [] => []
  | e :: rest => e.namings names ++ exprsNamings names rest

def fieldsNamings (names : List String) : List TableField → Namings
  | [] => []
  | .positional value :: rest => value.namings names ++ fieldsNamings names rest
  | .named _ value :: rest => value.namings names ++ fieldsNamings names rest
  | .keyed key value :: rest => key.namings names ++ value.namings names ++ fieldsNamings names rest
end

/-- The tables and keys of the targets that are not names. -/
def placesNamings (names : List String) : List Expr → Namings
  | [] => []
  | .name _ _ :: rest => placesNamings names rest
  | target :: rest => target.namings names ++ placesNamings names rest

/-- The names among the targets of an assignment. -/
def targetNames : List Expr → List String
  | [] => []
  | .name name _ :: rest => name :: targetNames rest
  | _ :: rest => targetNames rest

mutual
def Stmt.namings (names : List String) : Stmt → Namings
  | .local declared values _ => exprsNamings names values ++ [(.declare declared, names)]
  | .localFunction name body _ => [(.declare [name], names), (.nested body, name :: names), (.access name, name :: names)]
  | .assign targets values _ =>
    placesNamings names targets ++ exprsNamings names values ++
      (targetNames targets).reverse.map fun name => (.access name, names)
  | .call call => call.namings names
  | .block body => body.namings names
  | .while cond body _ => cond.namings names ++ body.namings names
  | .repeat body cond _ => body.namings names ++ cond.namings (body.visible names)
  | .if clauses otherwise _ =>
    clausesNamings names clauses ++
      match otherwise with
      | some body => body.namings names
      | none => []
  | .numericFor var start limit step body _ =>
    start.namings names ++ limit.namings names ++
      (match step with
      | some step => step.namings names
      | none => []) ++ (.declare [var], names) :: body.namings (var :: names)
  | .genericFor declared values body _ =>
    exprsNamings names values ++ (.declare declared, names) :: body.namings (declared.reverse ++ names)
  | .function name body _ =>
    match Compiler.storePath? name with
    | none => [(.nested body, names), (.access name.root, names)]
    | some _ => [(.access name.root, names), (.nested body, names)]
  | .break _ => []

def clausesNamings (names : List String) : List Clause → Namings
  | [] => []
  | ⟨cond, body⟩ :: rest => cond.namings names ++ body.namings names ++ clausesNamings names rest

def Block.namings (names : List String) : Block → Namings
  | ⟨stmts, ret, _⟩ =>
    stmtsNamings names stmts ++
      match ret with
      | some ⟨values, _⟩ => exprsNamings (stmts.foldl Stmt.visible names) values
      | none => []

def stmtsNamings (names : List String) : List Stmt → Namings
  | [] => []
  | stmt :: rest => stmt.namings names ++ stmtsNamings (stmt.visible names) rest
end

/-- The code of a function begins with the scope of its parameters, if it has any. -/
def FunctionBody.namings (names : List String) (f : FunctionBody) : Namings :=
  (if f.params.isEmpty then [] else [(.declare f.params, names)]) ++ f.body.namings (f.params.reverse ++ names)

/-- The code of the program itself, or that of a function nested in it, does that about names. -/
inductive Block.Does (program : Block) : Namings → Prop where
  | chunk : program.Does (program.namings [])
  | nested {T : Namings} {f : FunctionBody} {names : List String} (does : program.Does T)
      (mem : (.nested f, names) ∈ T) : program.Does (f.namings names)

end ScriptEngine
