import Mathlib.Data.List.Nodup
import ScriptEngine.Ast

/-!
# Lexical scope

Which binding a name refers to, read off the abstract program alone. The bindings of a program are
numbered in the order of the source, and a scope lists the bindings that are visible somewhere with
their numbers, the innermost first. A renaming gives one binding a new name, and with it exactly the
occurrences that refer to this binding. It leaves the other bindings alone (`Block.binderNames_renamed`),
and a new name that no variable has captures nothing (`Lexical.Renaming.binder_ne_use`).
-/

namespace ScriptEngine

/-- A place in a program where a variable is named. -/
inductive Mention where
  | binder (name : String)
  | use (name : String)
  deriving DecidableEq

namespace Mention

def name : Mention → String
  | binder name | use name => name

def isBinder : Mention → Bool
  | binder _ => true
  | use _ => false

end Mention

mutual
/-- The variables that are named in an expression, in the order of the source. -/
def Expr.mentions : Expr → List Mention
  | .nil _ | .boolean _ _ | .number _ _ | .string _ _ | .varargs _ => []
  | .name name _ => [.use name]
  | .paren inner _ => inner.mentions
  | .unary _ operand _ => operand.mentions
  | .binary _ lhs rhs _ => lhs.mentions ++ rhs.mentions
  | .index table key _ => table.mentions ++ key.mentions
  | .field table _ _ => table.mentions
  | .call callee args _ => callee.mentions ++ exprsMentions args
  | .methodCall object _ args _ => object.mentions ++ exprsMentions args
  | .function body => body.mentions
  | .table fields _ => fieldsMentions fields

def exprsMentions : List Expr → List Mention
  | [] => []
  | e :: rest => e.mentions ++ exprsMentions rest

def fieldsMentions : List TableField → List Mention
  | [] => []
  | .positional value :: rest => value.mentions ++ fieldsMentions rest
  | .named _ value :: rest => value.mentions ++ fieldsMentions rest
  | .keyed key value :: rest => key.mentions ++ value.mentions ++ fieldsMentions rest

def FunctionBody.mentions : FunctionBody → List Mention
  | ⟨params, _, body, _⟩ => params.map .binder ++ body.mentions

def Stmt.mentions : Stmt → List Mention
  | .local names values _ => names.map .binder ++ exprsMentions values
  | .localFunction name body _ => .binder name :: body.mentions
  | .assign targets values _ => exprsMentions targets ++ exprsMentions values
  | .call call => call.mentions
  | .block body => body.mentions
  | .while cond body _ => cond.mentions ++ body.mentions
  | .repeat body cond _ => body.mentions ++ cond.mentions
  | .if clauses otherwise _ =>
    clausesMentions clauses ++
      match otherwise with
      | some body => body.mentions
      | none => []
  | .numericFor var start limit step body _ =>
    .binder var :: (start.mentions ++ limit.mentions ++
      (match step with
      | some step => step.mentions
      | none => []) ++ body.mentions)
  | .genericFor names values body _ => names.map .binder ++ exprsMentions values ++ body.mentions
  | .function name body _ => .use name.root :: body.mentions
  | .break _ => []

def clausesMentions : List Clause → List Mention
  | [] => []
  | ⟨cond, body⟩ :: rest => cond.mentions ++ body.mentions ++ clausesMentions rest

def Block.mentions : Block → List Mention
  | ⟨stmts, ret, _⟩ =>
    stmtsMentions stmts ++
      match ret with
      | some ⟨values, _⟩ => exprsMentions values
      | none => []

def stmtsMentions : List Stmt → List Mention
  | [] => []
  | stmt :: rest => stmt.mentions ++ stmtsMentions rest
end

namespace Lexical

/-- How many of the mentions are binders. -/
def bindings (mentions : List Mention) : Nat := mentions.countP Mention.isBinder

/-- The bindings visible at some place with their numbers, the innermost first. -/
abbrev Scope := List (String × Nat)

/-- The bindings of names that are declared together, numbered from `n`. -/
def numbered (n : Nat) (names : List String) : Scope := (names.zipIdx n).reverse

/-- The bindings that a statement makes for the statements after it. -/
def declared (n : Nat) : Stmt → Scope
  | .local names _ _ => numbered n names
  | .localFunction name _ _ => numbered n [name]
  | _ => []

def allDeclared (n : Nat) : List Stmt → Scope
  | [] => []
  | stmt :: rest => allDeclared (n + bindings stmt.mentions) rest ++ declared n stmt

/-- A new name for one binding. -/
structure Renaming where
  /-- The number of the binding. -/
  target : Nat
  fresh : String

namespace Renaming

/-- The new name of a binding. -/
def binder (r : Renaming) (binding : String × Nat) : String :=
  if binding.2 = r.target then r.fresh else binding.1

def binders (r : Renaming) (n : Nat) (names : List String) : List String :=
  (names.zipIdx n).map r.binder

/-- The new name of a variable: that of the innermost visible binding of its name. -/
def use (r : Renaming) (scope : Scope) (name : String) : String :=
  match scope.find? (·.1 == name) with
  | some binding => r.binder binding
  | none => name

end Renaming

end Lexical

open Lexical

mutual
/-- The expression after the renaming, where `scope` is visible and the first binding in the expression
has the number `n`. -/
def Expr.renamed (r : Renaming) (scope : Lexical.Scope) (n : Nat) : Expr → Expr
  | .nil line => .nil line
  | .boolean b line => .boolean b line
  | .number x line => .number x line
  | .string s line => .string s line
  | .varargs line => .varargs line
  | .name name line => .name (r.use scope name) line
  | .paren inner line => .paren (inner.renamed r scope n) line
  | .unary op operand line => .unary op (operand.renamed r scope n) line
  | .binary op lhs rhs line =>
    .binary op (lhs.renamed r scope n) (rhs.renamed r scope (n + bindings lhs.mentions)) line
  | .index table key line =>
    .index (table.renamed r scope n) (key.renamed r scope (n + bindings table.mentions)) line
  | .field table name line => .field (table.renamed r scope n) name line
  | .call callee args line =>
    .call (callee.renamed r scope n) (exprsRenamed r scope (n + bindings callee.mentions) args) line
  | .methodCall object method args line =>
    .methodCall (object.renamed r scope n) method
      (exprsRenamed r scope (n + bindings object.mentions) args) line
  | .function body => .function (body.renamed r scope n)
  | .table fields line => .table (fieldsRenamed r scope n fields) line

def exprsRenamed (r : Renaming) (scope : Lexical.Scope) (n : Nat) : List Expr → List Expr
  | [] => []
  | e :: rest => e.renamed r scope n :: exprsRenamed r scope (n + bindings e.mentions) rest

def fieldsRenamed (r : Renaming) (scope : Lexical.Scope) (n : Nat) : List TableField → List TableField
  | [] => []
  | .positional value :: rest =>
    .positional (value.renamed r scope n) ::
      fieldsRenamed r scope (n + bindings value.mentions) rest
  | .named name value :: rest =>
    .named name (value.renamed r scope n) :: fieldsRenamed r scope (n + bindings value.mentions) rest
  | .keyed key value :: rest =>
    .keyed (key.renamed r scope n) (value.renamed r scope (n + bindings key.mentions)) ::
      fieldsRenamed r scope (n + bindings key.mentions + bindings value.mentions) rest

/-- Parameters are visible in the body of their function only. -/
def FunctionBody.renamed (r : Renaming) (scope : Lexical.Scope) (n : Nat) : FunctionBody → FunctionBody
  | ⟨params, isVararg, body, line⟩ =>
    ⟨r.binders n params, isVararg,
      body.renamed r (numbered n params ++ scope) (n + params.length), line⟩

/-- The values of a `local` statement and the bounds of a loop do not see what they initialize; a local
function and the condition of `repeat` see what is declared before them. -/
def Stmt.renamed (r : Renaming) (scope : Lexical.Scope) (n : Nat) : Stmt → Stmt
  | .local names values line =>
    .local (r.binders n names) (exprsRenamed r scope (n + names.length) values) line
  | .localFunction name body line =>
    .localFunction (r.binder (name, n)) (body.renamed r ((name, n) :: scope) (n + 1)) line
  | .assign targets values line =>
    .assign (exprsRenamed r scope n targets)
      (exprsRenamed r scope (n + bindings (exprsMentions targets)) values) line
  | .call call => .call (call.renamed r scope n)
  | .block body => .block (body.renamed r scope n)
  | .while cond body line =>
    .while (cond.renamed r scope n) (body.renamed r scope (n + bindings cond.mentions)) line
  | .repeat body cond line =>
    .repeat (body.renamed r scope n)
      (cond.renamed r (allDeclared n body.stmts ++ scope) (n + bindings body.mentions)) line
  | .if clauses otherwise line =>
    .if (clausesRenamed r scope n clauses)
      (match otherwise with
      | some body => some (body.renamed r scope (n + bindings (clausesMentions clauses)))
      | none => none) line
  | .numericFor var start limit step body line =>
    let afterStart := n + 1 + bindings start.mentions
    let afterLimit := afterStart + bindings limit.mentions
    let afterStep := afterLimit +
      match step with
      | some step => bindings step.mentions
      | none => 0
    .numericFor (r.binder (var, n)) (start.renamed r scope (n + 1)) (limit.renamed r scope afterStart)
      (match step with
      | some step => some (step.renamed r scope afterLimit)
      | none => none)
      (body.renamed r ((var, n) :: scope) afterStep) line
  | .genericFor names values body line =>
    let afterNames := n + names.length
    .genericFor (r.binders n names) (exprsRenamed r scope afterNames values)
      (body.renamed r (numbered n names ++ scope) (afterNames + bindings (exprsMentions values))) line
  | .function name body line =>
    .function { name with root := r.use scope name.root } (body.renamed r scope n) line
  | .break line => .break line

def clausesRenamed (r : Renaming) (scope : Lexical.Scope) (n : Nat) : List Clause → List Clause
  | [] => []
  | ⟨cond, body⟩ :: rest =>
    ⟨cond.renamed r scope n, body.renamed r scope (n + bindings cond.mentions)⟩ ::
      clausesRenamed r scope (n + bindings cond.mentions + bindings body.mentions) rest

def Block.renamed (r : Renaming) (scope : Lexical.Scope) (n : Nat) : Block → Block
  | ⟨stmts, ret, line⟩ =>
    ⟨stmtsRenamed r scope n stmts,
      (match ret with
      | some ⟨values, retLine⟩ => some ⟨exprsRenamed r (allDeclared n stmts ++ scope)
          (n + bindings (stmtsMentions stmts)) values, retLine⟩
      | none => none), line⟩

def stmtsRenamed (r : Renaming) (scope : Lexical.Scope) (n : Nat) : List Stmt → List Stmt
  | [] => []
  | stmt :: rest =>
    stmt.renamed r scope n ::
      stmtsRenamed r (declared n stmt ++ scope) (n + bindings stmt.mentions) rest
end

/-! ## What a renaming changes -/

namespace Lexical

theorem bindings_append (ms ms' : List Mention) : bindings (ms ++ ms') = bindings ms + bindings ms' :=
  List.countP_append

theorem bindings_binder (name : String) (ms : List Mention) :
    bindings (.binder name :: ms) = bindings ms + 1 := List.countP_cons_of_pos rfl

theorem bindings_use (name : String) (ms : List Mention) : bindings (.use name :: ms) = bindings ms :=
  List.countP_cons_of_neg nofun

theorem bindings_binders (names : List String) : bindings (names.map .binder) = names.length := by
  induction names with
  | nil => rfl
  | cons name rest ih => rw [List.map_cons, bindings_binder, ih, List.length_cons]

/-- The names of the bindings among the mentions, in the order of their numbers. -/
def binderNames (mentions : List Mention) : List String :=
  mentions.filterMap fun
    | .binder name => some name
    | .use _ => none

theorem binderNames_binder (name : String) (ms : List Mention) :
    binderNames (.binder name :: ms) = name :: binderNames ms := rfl

theorem binderNames_append (ms ms' : List Mention) :
    binderNames (ms ++ ms') = binderNames ms ++ binderNames ms' := List.filterMap_append

theorem binderNames_binders (names : List String) : binderNames (names.map .binder) = names := by
  induction names with
  | nil => rfl
  | cons name rest ih => exact congrArg (name :: ·) ih

theorem length_binderNames (ms : List Mention) : (binderNames ms).length = bindings ms := by
  induction ms with
  | nil => rfl
  | cons m rest ih =>
    cases m with
    | binder name => rw [bindings_binder, ← ih]; rfl
    | use name => rw [bindings_use, ← ih]; rfl

theorem Renaming.binders_binder (r : Renaming) (n : Nat) (name : String) (names : List String) :
    r.binders n (name :: names) = r.binder (name, n) :: r.binders (n + 1) names := rfl

theorem Renaming.binders_append (r : Renaming) (n : Nat) (names names' : List String) :
    r.binders n (names ++ names') = r.binders n names ++ r.binders (n + names.length) names' := by
  simp [binders, List.zipIdx_append]

/-- The names after the renaming, where the second part of a program is numbered after the first. -/
theorem Renaming.binders_mentions (r : Renaming) (n : Nat) (ms ms' : List Mention) :
    r.binders n (binderNames (ms ++ ms')) =
      r.binders n (binderNames ms) ++ r.binders (n + bindings ms) (binderNames ms') := by
  rw [binderNames_append, binders_append, length_binderNames]

end Lexical

mutual
/-- A renaming changes the name of the target among the bindings, and no other. -/
theorem Expr.binderNames_renamed (r : Renaming) : ∀ (e : Expr) (scope : Lexical.Scope) (n : Nat),
    binderNames (e.renamed r scope n).mentions = r.binders n (binderNames e.mentions)
  | .nil _, _, _ | .boolean _ _, _, _ | .number _ _, _, _ | .string _ _, _, _ | .varargs _, _, _
  | .name _ _, _, _ => rfl
  | .paren inner _, scope, n => inner.binderNames_renamed r scope n
  | .unary _ operand _, scope, n => operand.binderNames_renamed r scope n
  | .field table _ _, scope, n => table.binderNames_renamed r scope n
  | .binary _ lhs rhs _, scope, n => by
    rw [Expr.renamed, Expr.mentions, Expr.mentions, binderNames_append, r.binders_mentions,
      lhs.binderNames_renamed r, rhs.binderNames_renamed r]
  | .index table key _, scope, n => by
    rw [Expr.renamed, Expr.mentions, Expr.mentions, binderNames_append, r.binders_mentions,
      table.binderNames_renamed r, key.binderNames_renamed r]
  | .call callee args _, scope, n => by
    rw [Expr.renamed, Expr.mentions, Expr.mentions, binderNames_append, r.binders_mentions,
      callee.binderNames_renamed r, exprs_binderNames_renamed r args]
  | .methodCall object _ args _, scope, n => by
    rw [Expr.renamed, Expr.mentions, Expr.mentions, binderNames_append, r.binders_mentions,
      object.binderNames_renamed r, exprs_binderNames_renamed r args]
  | .function body, scope, n => body.binderNames_renamed r scope n
  | .table fields _, scope, n => fields_binderNames_renamed r fields scope n

theorem exprs_binderNames_renamed (r : Renaming) : ∀ (es : List Expr) (scope : Lexical.Scope) (n : Nat),
    binderNames (exprsMentions (exprsRenamed r scope n es)) = r.binders n (binderNames (exprsMentions es))
  | [], _, _ => rfl
  | e :: rest, scope, n => by
    rw [exprsRenamed, exprsMentions, exprsMentions, binderNames_append, r.binders_mentions,
      e.binderNames_renamed r, exprs_binderNames_renamed r rest]

theorem fields_binderNames_renamed (r : Renaming) : ∀ (fields : List TableField) (scope : Lexical.Scope)
    (n : Nat), binderNames (fieldsMentions (fieldsRenamed r scope n fields)) =
      r.binders n (binderNames (fieldsMentions fields))
  | [], _, _ => rfl
  | .positional value :: rest, scope, n => by
    rw [fieldsRenamed, fieldsMentions, fieldsMentions, binderNames_append, r.binders_mentions,
      value.binderNames_renamed r, fields_binderNames_renamed r rest]
  | .named _ value :: rest, scope, n => by
    rw [fieldsRenamed, fieldsMentions, fieldsMentions, binderNames_append, r.binders_mentions,
      value.binderNames_renamed r, fields_binderNames_renamed r rest]
  | .keyed key value :: rest, scope, n => by
    rw [fieldsRenamed, fieldsMentions, fieldsMentions, binderNames_append, binderNames_append,
      r.binders_mentions, r.binders_mentions, bindings_append, ← Nat.add_assoc,
      key.binderNames_renamed r, value.binderNames_renamed r, fields_binderNames_renamed r rest]

theorem FunctionBody.binderNames_renamed (r : Renaming) : ∀ (f : FunctionBody) (scope : Lexical.Scope)
    (n : Nat), binderNames (f.renamed r scope n).mentions = r.binders n (binderNames f.mentions)
  | ⟨params, _, body, _⟩, scope, n => by
    rw [FunctionBody.renamed, FunctionBody.mentions, FunctionBody.mentions, binderNames_append,
      r.binders_mentions, binderNames_binders, binderNames_binders, bindings_binders,
      body.binderNames_renamed r]

theorem Stmt.binderNames_renamed (r : Renaming) : ∀ (stmt : Stmt) (scope : Lexical.Scope) (n : Nat),
    binderNames (stmt.renamed r scope n).mentions = r.binders n (binderNames stmt.mentions)
  | .local names values _, scope, n => by
    rw [Stmt.renamed, Stmt.mentions, Stmt.mentions, binderNames_append, r.binders_mentions,
      binderNames_binders, binderNames_binders, bindings_binders, exprs_binderNames_renamed r values]
  | .localFunction name body _, scope, n => by
    have rest := body.binderNames_renamed r ((name, n) :: scope) (n + 1)
    rw [Stmt.renamed, Stmt.mentions, Stmt.mentions]
    exact congrArg (r.binder (name, n) :: ·) rest
  | .assign targets values _, scope, n => by
    rw [Stmt.renamed, Stmt.mentions, Stmt.mentions, binderNames_append, r.binders_mentions,
      exprs_binderNames_renamed r targets, exprs_binderNames_renamed r values]
  | .call call, scope, n => call.binderNames_renamed r scope n
  | .block body, scope, n => body.binderNames_renamed r scope n
  | .while cond body _, scope, n => by
    rw [Stmt.renamed, Stmt.mentions, Stmt.mentions, binderNames_append, r.binders_mentions,
      cond.binderNames_renamed r, body.binderNames_renamed r]
  | .repeat body cond _, scope, n => by
    rw [Stmt.renamed, Stmt.mentions, Stmt.mentions, binderNames_append, r.binders_mentions,
      cond.binderNames_renamed r, body.binderNames_renamed r]
  | .if clauses none _, scope, n => by
    rw [Stmt.renamed, Stmt.mentions, Stmt.mentions, List.append_nil, List.append_nil,
      clauses_binderNames_renamed r clauses]
  | .if clauses (some body) _, scope, n => by
    rw [Stmt.renamed, Stmt.mentions, Stmt.mentions, binderNames_append, r.binders_mentions,
      clauses_binderNames_renamed r clauses, body.binderNames_renamed r]
  | .numericFor var start limit none body _, scope, n => by
    rw [Stmt.renamed, Stmt.mentions, Stmt.mentions, binderNames_binder, binderNames_binder,
      r.binders_binder, binderNames_append, binderNames_append, binderNames_append,
      r.binders_mentions, r.binders_mentions, r.binders_mentions, bindings_append, bindings_append,
      bindings_append, start.binderNames_renamed r, limit.binderNames_renamed r,
      body.binderNames_renamed r]
    simp only [Nat.add_assoc]
    rfl
  | .numericFor var start limit (some step) body _, scope, n => by
    rw [Stmt.renamed, Stmt.mentions, Stmt.mentions, binderNames_binder, binderNames_binder,
      r.binders_binder, binderNames_append, binderNames_append, binderNames_append,
      r.binders_mentions, r.binders_mentions, r.binders_mentions, bindings_append, bindings_append,
      bindings_append, start.binderNames_renamed r, limit.binderNames_renamed r,
      step.binderNames_renamed r, body.binderNames_renamed r]
    simp only [Nat.add_assoc]
  | .genericFor names values body _, scope, n => by
    rw [Stmt.renamed, Stmt.mentions, Stmt.mentions, binderNames_append, binderNames_append,
      r.binders_mentions, r.binders_mentions, binderNames_binders, binderNames_binders,
      bindings_append, bindings_binders, ← Nat.add_assoc, exprs_binderNames_renamed r values,
      body.binderNames_renamed r]
  | .function _ body _, scope, n => body.binderNames_renamed r scope n
  | .break _, _, _ => rfl

theorem clauses_binderNames_renamed (r : Renaming) : ∀ (clauses : List Clause) (scope : Lexical.Scope)
    (n : Nat), binderNames (clausesMentions (clausesRenamed r scope n clauses)) =
      r.binders n (binderNames (clausesMentions clauses))
  | [], _, _ => rfl
  | ⟨cond, body⟩ :: rest, scope, n => by
    rw [clausesRenamed, clausesMentions, clausesMentions, binderNames_append, binderNames_append,
      r.binders_mentions, r.binders_mentions, bindings_append, ← Nat.add_assoc,
      cond.binderNames_renamed r, body.binderNames_renamed r, clauses_binderNames_renamed r rest]

theorem Block.binderNames_renamed (r : Renaming) : ∀ (body : Block) (scope : Lexical.Scope) (n : Nat),
    binderNames (body.renamed r scope n).mentions = r.binders n (binderNames body.mentions)
  | ⟨stmts, none, _⟩, scope, n => by
    rw [Block.renamed, Block.mentions, Block.mentions, List.append_nil, List.append_nil,
      stmts_binderNames_renamed r stmts]
  | ⟨stmts, some ⟨values, _⟩, _⟩, scope, n => by
    rw [Block.renamed, Block.mentions, Block.mentions, binderNames_append, r.binders_mentions,
      stmts_binderNames_renamed r stmts, exprs_binderNames_renamed r values]

theorem stmts_binderNames_renamed (r : Renaming) : ∀ (stmts : List Stmt) (scope : Lexical.Scope) (n : Nat),
    binderNames (stmtsMentions (stmtsRenamed r scope n stmts)) =
      r.binders n (binderNames (stmtsMentions stmts))
  | [], _, _ => rfl
  | stmt :: rest, scope, n => by
    rw [stmtsRenamed, stmtsMentions, stmtsMentions, binderNames_append, r.binders_mentions,
      stmt.binderNames_renamed r, stmts_binderNames_renamed r rest]
end

/-! ## Scopes in which the renaming captures nothing -/

namespace Lexical

variable {r : Renaming} {scope : Scope} {n : Nat}

/-- The new name is not among the variables of the mentions. -/
def Renaming.IsFreshIn (r : Renaming) (mentions : List Mention) : Prop :=
  ∀ m ∈ mentions, m.name ≠ r.fresh

namespace Renaming.IsFreshIn

variable {ms ms' : List Mention} {m : Mention}

theorem append_iff : r.IsFreshIn (ms ++ ms') ↔ r.IsFreshIn ms ∧ r.IsFreshIn ms' :=
  List.forall_mem_append

theorem cons_iff : r.IsFreshIn (m :: ms) ↔ m.name ≠ r.fresh ∧ r.IsFreshIn ms :=
  List.forall_mem_cons

theorem binders_iff {names : List String} :
    r.IsFreshIn (names.map .binder) ↔ ∀ name ∈ names, name ≠ r.fresh :=
  List.forall_mem_map

end Renaming.IsFreshIn

/-- Every visible binding has a number of its own, which is less than `n`, and none has the new name. -/
structure Proper (r : Renaming) (n : Nat) (scope : Scope) : Prop where
  distinct : (scope.map (·.2)).Nodup
  below : ∀ binding ∈ scope, binding.2 < n
  fresh : ∀ binding ∈ scope, binding.1 ≠ r.fresh

namespace Proper

theorem nil (r : Renaming) (n : Nat) : Proper r n [] := ⟨.nil, by simp, by simp⟩

theorem mono {m : Nat} (h : Proper r n scope) (le : n ≤ m) : Proper r m scope :=
  ⟨h.distinct, fun b mem => Nat.lt_of_lt_of_le (h.below b mem) le, h.fresh⟩

/-- What follows in a program has greater numbers. -/
theorem add (h : Proper r n scope) (k : Nat) : Proper r (n + k) scope := h.mono (Nat.le_add_right n k)

theorem cons {name : String} (h : Proper r n scope) (other : name ≠ r.fresh) :
    Proper r (n + 1) ((name, n) :: scope) where
  distinct := by
    refine List.nodup_cons.2 ⟨fun mem => ?_, h.distinct⟩
    obtain ⟨b, mem, same⟩ := List.mem_map.1 mem
    have below := h.below b mem
    exact Nat.ne_of_lt below same
  below b mem := by
    rcases List.mem_cons.1 mem with rfl | mem
    · exact Nat.lt_succ_self n
    · exact Nat.lt_succ_of_lt (h.below b mem)
  fresh := List.forall_mem_cons.2 ⟨other, h.fresh⟩

theorem tail {binding : String × Nat} (h : Proper r n (binding :: scope)) : Proper r n scope :=
  ⟨(List.nodup_cons.1 h.distinct).2, fun b mem => h.below b (List.mem_cons_of_mem _ mem),
    fun b mem => h.fresh b (List.mem_cons_of_mem _ mem)⟩

end Proper

theorem numbered_cons (n : Nat) (name : String) (rest : List String) (scope : Scope) :
    numbered n (name :: rest) ++ scope = numbered (n + 1) rest ++ (name, n) :: scope := by
  simp [numbered, List.zipIdx_cons]

theorem Proper.numbered {names : List String} (h : Proper r n scope)
    (fresh : ∀ name ∈ names, name ≠ r.fresh) :
    Proper r (n + names.length) (numbered n names ++ scope) := by
  induction names generalizing n scope with
  | nil => exact h
  | cons name rest ih =>
    obtain ⟨other, fresh⟩ := List.forall_mem_cons.1 fresh
    have more := ih (h.cons other) fresh
    rw [numbered_cons, List.length_cons, Nat.add_comm rest.length, ← Nat.add_assoc]
    exact more

/-! ## What statements declare -/

/-- A statement declares bindings of its own only. -/
theorem Proper.declared (h : Proper r n scope) (stmt : Stmt) (fresh : r.IsFreshIn stmt.mentions) :
    Proper r (n + bindings stmt.mentions) (declared n stmt ++ scope) := by
  cases stmt with
  | «local» names values line =>
    rw [Stmt.mentions, Renaming.IsFreshIn.append_iff, Renaming.IsFreshIn.binders_iff] at fresh
    rw [Stmt.mentions, bindings_append, bindings_binders, ← Nat.add_assoc]
    exact (h.numbered fresh.1).add _
  | localFunction name body line =>
    rw [Stmt.mentions, Renaming.IsFreshIn.cons_iff] at fresh
    rw [Stmt.mentions, bindings_binder, Nat.add_comm (bindings _), ← Nat.add_assoc]
    exact (h.cons fresh.1).add _
  | _ => exact h.add _

theorem Proper.allDeclared (h : Proper r n scope) (stmts : List Stmt)
    (fresh : r.IsFreshIn (stmtsMentions stmts)) :
    Proper r (n + bindings (stmtsMentions stmts)) (allDeclared n stmts ++ scope) := by
  induction stmts generalizing n scope with
  | nil => exact h
  | cons stmt rest ih =>
    rw [stmtsMentions, Renaming.IsFreshIn.append_iff] at fresh
    have more := ih (h.declared stmt fresh.1) fresh.2
    rw [stmtsMentions, bindings_append, ← Nat.add_assoc, Lexical.allDeclared, List.append_assoc]
    exact more

theorem Proper.block (h : Proper r n scope) {body : Block} (fresh : r.IsFreshIn body.mentions) :
    Proper r (n + bindings body.mentions) (Lexical.allDeclared n body.stmts ++ scope) := by
  obtain ⟨rest, split⟩ : ∃ rest, body.mentions = stmtsMentions body.stmts ++ rest := by
    obtain ⟨stmts, ret, line⟩ := body
    cases ret <;> exact ⟨_, Block.mentions.eq_def _⟩
  rw [split, Renaming.IsFreshIn.append_iff] at fresh
  rw [split, bindings_append, ← Nat.add_assoc]
  exact (h.allDeclared body.stmts fresh.1).add _

namespace Renaming

theorem use_of_eq (r : Renaming) {binding : String × Nat} {name : String} (same : binding.1 = name) :
    r.use (binding :: scope) name = r.binder binding := by
  simp [use, same]

theorem use_of_ne (r : Renaming) {binding : String × Nat} {name : String} (other : binding.1 ≠ name) :
    r.use (binding :: scope) name = r.use scope name := by
  simp [use, other]

/-- Names that were different are different after the renaming. -/
theorem binder_ne_use {binding : String × Nat} {name : String} (h : Proper r n (binding :: scope))
    (other : name ≠ r.fresh) (ne : binding.1 ≠ name) : r.binder binding ≠ r.use scope name := by
  have unlike : binding.1 ≠ r.fresh := h.fresh binding List.mem_cons_self
  have alone : binding.2 ∉ scope.map (·.2) := (List.nodup_cons.1 h.distinct).1
  unfold use
  split
  · rename_i found eq
    have named : found.1 = name := by simpa using List.find?_some eq
    have mem : found.2 ∈ scope.map (·.2) := List.mem_map_of_mem (List.mem_of_find?_eq_some eq)
    unfold binder
    rw [named]
    split
    · rename_i target
      -- two bindings have different numbers, so only one of them is renamed
      have another : found.2 ≠ r.target := by
        rw [← target]
        exact fun same => alone (same ▸ mem)
      rw [if_neg another]
      exact other.symm
    · split
      · exact unlike
      · exact ne
  · unfold binder
    split
    · exact other.symm
    · exact ne

end Renaming

end Lexical

end ScriptEngine
