import Mathlib
import ScriptEngine.Parser

/-!
# What the parser never produces

The type of programs has more values than the grammar: an assignment to a literal, a loop over no
names. `Regular` leaves them out, and a parsed program is regular (`parse_regular`). It also says of
the number literals what is known of the numbers among the tokens.
-/

set_option linter.dupNamespace false

namespace ScriptEngine

variable (N : Float → Prop)

mutual
/-- Nothing in the expression is beyond the grammar, and its number literals satisfy `N`. -/
inductive Expr.Regular : Expr → Prop
  | nil {line : Nat} : Expr.Regular (.nil line)
  | boolean {b : Bool} {line : Nat} : Expr.Regular (.boolean b line)
  | number {n : Float} {line : Nat} (literal : N n) : Expr.Regular (.number n line)
  | string {s : String} {line : Nat} : Expr.Regular (.string s line)
  | varargs {line : Nat} : Expr.Regular (.varargs line)
  | name {name : String} {line : Nat} : Expr.Regular (.name name line)
  | paren {inner : Expr} {line : Nat} (operand : Expr.Regular inner) : Expr.Regular (.paren inner line)
  | unary {op : UnaryOp} {inner : Expr} {line : Nat} (operand : Expr.Regular inner) :
    Expr.Regular (.unary op inner line)
  | binary {op : BinaryOp} {lhs rhs : Expr} {line : Nat} (left : Expr.Regular lhs)
    (right : Expr.Regular rhs) : Expr.Regular (.binary op lhs rhs line)
  | index {t k : Expr} {line : Nat} (table : Expr.Regular t) (key : Expr.Regular k) :
    Expr.Regular (.index t k line)
  | field {t : Expr} {name : String} {line : Nat} (table : Expr.Regular t) :
    Expr.Regular (.field t name line)
  | call {f : Expr} {args : List Expr} {line : Nat} (callee : Expr.Regular f)
    (arguments : ∀ e ∈ args, Expr.Regular e) : Expr.Regular (.call f args line)
  | methodCall {o : Expr} {method : String} {args : List Expr} {line : Nat} (object : Expr.Regular o)
    (arguments : ∀ e ∈ args, Expr.Regular e) : Expr.Regular (.methodCall o method args line)
  | function {f : FunctionBody} (body : Block.Regular f.body) : Expr.Regular (.function f)
  | table {fs : List TableField} {line : Nat} (fields : ∀ f ∈ fs, TableField.Regular f) :
    Expr.Regular (.table fs line)

inductive TableField.Regular : TableField → Prop
  | keyed {k v : Expr} (key : Expr.Regular k) (value : Expr.Regular v) :
    TableField.Regular (.keyed k v)
  | named {name : String} {v : Expr} (value : Expr.Regular v) : TableField.Regular (.named name v)
  | positional {v : Expr} (value : Expr.Regular v) : TableField.Regular (.positional v)

inductive Stmt.Regular : Stmt → Prop
  | local {names : List String} {vs : List Expr} {line : Nat} (values : ∀ e ∈ vs, Expr.Regular e) :
    Stmt.Regular (.local names vs line)
  | localFunction {name : String} {f : FunctionBody} {line : Nat} (body : Block.Regular f.body) :
    Stmt.Regular (.localFunction name f line)
  | assign {ts vs : List Expr} {line : Nat}
    (targets : ∀ e ∈ ts, Expr.Regular e) (places : ∀ e ∈ ts, e.isAssignable = true)
    (values : ∀ e ∈ vs, Expr.Regular e) : Stmt.Regular (.assign ts vs line)
  | call {e : Expr} (call : Expr.Regular e) : Stmt.Regular (.call e)
  | block {b : Block} (body : Block.Regular b) : Stmt.Regular (.block b)
  | while {c : Expr} {b : Block} {line : Nat} (cond : Expr.Regular c) (body : Block.Regular b) :
    Stmt.Regular (.while c b line)
  | repeat {b : Block} {c : Expr} {line : Nat} (body : Block.Regular b) (cond : Expr.Regular c) :
    Stmt.Regular (.repeat b c line)
  | if {cs : List Clause} {o : Option Block} {line : Nat}
    (conds : ∀ c ∈ cs, Expr.Regular c.cond) (bodies : ∀ c ∈ cs, Block.Regular c.body)
    (otherwise : ∀ b, o = some b → Block.Regular b) : Stmt.Regular (.if cs o line)
  | numericFor {var : String} {s l : Expr} {p : Option Expr} {b : Block} {line : Nat}
    (start : Expr.Regular s) (limit : Expr.Regular l) (step : ∀ e, p = some e → Expr.Regular e)
    (body : Block.Regular b) : Stmt.Regular (.numericFor var s l p b line)
  | genericFor {names : List String} {vs : List Expr} {b : Block} {line : Nat} (some' : names ≠ [])
    (values : ∀ e ∈ vs, Expr.Regular e) (body : Block.Regular b) :
    Stmt.Regular (.genericFor names vs b line)
  | function {name : FunctionName} {f : FunctionBody} {line : Nat} (body : Block.Regular f.body) :
    Stmt.Regular (.function name f line)
  | break {line : Nat} : Stmt.Regular (.break line)

inductive Block.Regular : Block → Prop
  | intro {b : Block} (stmts : ∀ s ∈ b.stmts, Stmt.Regular s)
    (values : ∀ r, b.ret = some r → ∀ e ∈ r.values, Expr.Regular e) : Block.Regular b
end

/-- All number tokens satisfy `N`. -/
def Numbered (tokens : List Token) : Prop := ∀ t ∈ tokens, ∀ n, t.kind = .number n → N n

namespace Parser

-- The equations of the parser's functions are worked out here, and not again in each proof that opens one.
attribute [grind =] literal? endsBlock statement statements expressionStatement block returnStatement conditional
  moreClauses loopBody numericFor genericFor moreTargets functionBody expression expressions moreExpressions
  moreOperands operand simple primary suffixed suffixes arguments tableConstructor tableFields tableField

/-- What `p` gives satisfies `Q`. -/
def Yields {α : Type} (p : Parser α) (Q : α → Prop) : Prop :=
  ∀ s, Numbered N s → ∀ a t, p s = .ok (a, t) → Q a ∧ Numbered N t

variable {N} {α β : Type}

namespace Yields

theorem bind {p : Parser α} {f : α → Parser β} {P : α → Prop} {Q : β → Prop} (h : Yields N p P)
    (next : ∀ a, P a → Yields N (f a) Q) : Yields N (p >>= f) Q := by
  intro s hs b t ran
  cases first : p s with
  | error e => simp [Bind.bind, StateT.bind, Except.bind, first] at ran
  | ok r =>
    obtain ⟨ha, hr⟩ := h s hs r.1 r.2 first
    simp only [Bind.bind, StateT.bind, Except.bind, first] at ran
    exact next r.1 ha r.2 hr b t ran

theorem pure {a : α} {Q : α → Prop} (h : Q a) : Yields N (Pure.pure a : Parser α) Q := by
  intro s hs b t ran
  cases ran
  exact ⟨h, hs⟩

theorem throw {e : SourceError} {Q : α → Prop} :
    Yields N (MonadExcept.throw e : Parser α) Q := by
  intro s hs a t ran
  cases ran

theorem get {Q : List Token → Prop} (h : ∀ s, Numbered N s → Q s) :
    Yields N (MonadState.get : Parser (List Token)) Q := by
  intro s hs a t ran
  cases ran
  exact ⟨h s hs, hs⟩

theorem ite {c : Prop} [Decidable c] {p q : Parser α} {Q : α → Prop} (yes : Yields N p Q)
    (no : Yields N q Q) : Yields N (if c then p else q) Q := by
  split
  · exact yes
  · exact no

theorem map {p : Parser α} {f : α → β} {P : α → Prop} {Q : β → Prop} (h : Yields N p P)
    (image : ∀ a, P a → Q (f a)) : Yields N (f <$> p) Q :=
  h.bind fun a ha => pure (image a ha)

end Yields

/-! ## Single tokens -/

theorem peek_yields : Yields N peek fun kind => ∀ n, kind = .number n → N n := by
  refine Yields.bind (P := Numbered N) (.get fun s hs => hs) fun s hs => ?_
  split
  · exact .pure (hs _ (by simp))
  · exact .pure (by simp)

theorem position_yields : Yields N position fun _ => True := by
  refine Yields.bind (P := fun _ => True) (.get fun _ _ => trivial) fun s _ => ?_
  split <;> exact .pure trivial

theorem line_yields : Yields N line fun _ => True :=
  position_yields.bind fun _ _ => .pure trivial

theorem peekSecond_yields : Yields N peekSecond fun _ => True := by
  refine Yields.bind (P := fun _ => True) (.get fun _ _ => trivial) fun s _ => ?_
  split <;> exact .pure trivial

theorem advance_yields : Yields N advance fun _ => True := by
  refine Yields.bind (P := Numbered N) (.get fun s hs => hs) fun s hs => ?_
  split
  · rintro t - - - ⟨⟩
    exact ⟨trivial, fun token mem => hs token (List.mem_cons_of_mem _ mem)⟩
  · exact .pure trivial

theorem fail_yields {flaw : Flaw} {Q : α → Prop} : Yields N (fail flaw : Parser α) Q :=
  position_yields.bind fun _ _ => .throw

theorem eat_yields {kind : Kind} : Yields N (eat kind) fun _ => True :=
  peek_yields.bind fun _ _ => .ite (advance_yields.bind fun _ _ => .pure trivial) (.pure trivial)

theorem expect_yields {kind : Kind} : Yields N (expect kind) fun _ => True :=
  peek_yields.bind fun _ _ => .ite advance_yields fail_yields

theorem expectName_yields : Yields N expectName fun _ => True := by
  refine peek_yields.bind fun kind _ => ?_
  split
  · exact advance_yields.bind fun _ _ => .pure trivial
  · exact fail_yields

theorem skipSemicolons_yields : Yields N skipSemicolons fun _ => True := by
  rintro s hs - - ⟨⟩
  exact ⟨trivial, fun token mem => hs token ((List.dropWhile_sublist _).subset mem)⟩

/-! ## Lists of names -/

theorem namesAfter_yields {separator : Kind} (n : Nat) (seen : List String) :
    Yields N (namesAfter separator n seen) fun names => seen ≠ [] → names ≠ [] := by
  induction n generalizing seen with
  | zero => exact fail_yields
  | succ n ih =>
    refine eat_yields.bind fun _ _ => .ite (expectName_yields.bind fun name _ => ?_)
      (.pure fun some' => by simpa using some')
    intro s hs names t ran
    obtain ⟨h, ht⟩ := ih (name :: seen) s hs names t ran
    exact ⟨fun _ => h (by simp), ht⟩

theorem nameList_yields (n : Nat) : Yields N (nameList n) fun _ => True :=
  expectName_yields.bind fun name _ s hs names t ran =>
    ⟨trivial, (namesAfter_yields n [name] s hs names t ran).2⟩

theorem parameters_yields (n : Nat) (seen : List String) :
    Yields N (parameters n seen) fun _ => True := by
  induction n generalizing seen with
  | zero => exact fail_yields
  | succ n ih =>
    refine eat_yields.bind fun _ _ => .ite (.pure trivial) (expectName_yields.bind fun name _ => ?_)
    exact eat_yields.bind fun _ _ => .ite (ih (name :: seen)) (.pure trivial)

theorem parameterList_yields (n : Nat) : Yields N (parameterList n) fun _ => True := by
  refine expect_yields.bind fun _ _ => peek_yields.bind fun _ _ => ?_
  exact .ite (.bind (P := fun _ => True) (.pure trivial) fun _ _ => expect_yields.bind fun _ _ =>
    .pure trivial) ((parameters_yields n []).bind fun _ _ => expect_yields.bind fun _ _ =>
    .pure trivial)

theorem functionName_yields (n : Nat) : Yields N (functionName n) fun _ => True := by
  refine expectName_yields.bind fun _ _ => (namesAfter_yields n []).bind fun _ _ =>
    eat_yields.bind fun _ _ => ?_
  exact .ite (.bind (P := fun _ => True) (expectName_yields.map fun _ _ => trivial) fun _ _ =>
    .pure trivial) (.bind (P := fun _ => True) (.pure trivial) fun _ _ => .pure trivial)

/-! ## The grammar -/

/-- With an allowance of `n` steps, every rule of the grammar gives regular programs. -/
structure Parses (N : Float → Prop) (n : Nat) : Prop where
  block : Yields N (block n) (Block.Regular N)
  statements : ∀ seen, (∀ s ∈ seen, s.Regular N) → Yields N (statements n seen) fun r =>
    (∀ s ∈ r.1, s.Regular N) ∧ ∀ ret, r.2 = some ret → ∀ e ∈ ret.values, e.Regular N
  returnStatement : Yields N (returnStatement n) fun ret => ∀ e ∈ ret.values, e.Regular N
  statement : Yields N (statement n) (Stmt.Regular N)
  conditional : Yields N (conditional n) fun c => c.cond.Regular N ∧ c.body.Regular N
  moreClauses : ∀ seen, (∀ c ∈ seen, c.cond.Regular N ∧ c.body.Regular N) →
    Yields N (moreClauses n seen) fun r =>
      (∀ c ∈ r.1, c.cond.Regular N ∧ c.body.Regular N) ∧ ∀ b, r.2 = some b → b.Regular N
  loopBody : Yields N (loopBody n) (Block.Regular N)
  numericFor : ∀ var line, Yields N (numericFor n var line) (Stmt.Regular N)
  genericFor : ∀ first line, Yields N (genericFor n first line) (Stmt.Regular N)
  expressionStatement : ∀ line, Yields N (expressionStatement n line) (Stmt.Regular N)
  moreTargets : ∀ seen, (∀ e ∈ seen, e.Regular N) →
    Yields N (moreTargets n seen) fun es => ∀ e ∈ es, e.Regular N
  functionBody : ∀ first line, Yields N (functionBody n first line) fun f => f.body.Regular N
  expressions : Yields N (expressions n) fun es => ∀ e ∈ es, e.Regular N
  moreExpressions : ∀ seen, (∀ e ∈ seen, e.Regular N) →
    Yields N (moreExpressions n seen) fun es => ∀ e ∈ es, e.Regular N
  expression : ∀ power, Yields N (expression n power) (Expr.Regular N)
  moreOperands : ∀ power lhs, lhs.Regular N → Yields N (moreOperands n power lhs) (Expr.Regular N)
  operand : Yields N (operand n) (Expr.Regular N)
  simple : Yields N (simple n) (Expr.Regular N)
  suffixed : Yields N (suffixed n) (Expr.Regular N)
  suffixes : ∀ e, e.Regular N → Yields N (suffixes n e) (Expr.Regular N)
  primary : Yields N (primary n) (Expr.Regular N)
  arguments : Yields N (arguments n) fun es => ∀ e ∈ es, e.Regular N
  tableConstructor : Yields N (tableConstructor n) (Expr.Regular N)
  tableFields : ∀ seen, (∀ f ∈ seen, f.Regular N) →
    Yields N (tableFields n seen) fun fs => ∀ f ∈ fs, f.Regular N
  tableField : Yields N (tableField n) (TableField.Regular N)

namespace Parses

/-- Without steps every rule fails. -/
theorem zero : Parses N 0 := by
  constructor <;> intros <;>
    simp only [Parser.block, Parser.statements, Parser.returnStatement, Parser.statement,
      Parser.conditional, Parser.moreClauses, Parser.loopBody, Parser.numericFor, Parser.genericFor,
      Parser.expressionStatement, Parser.moreTargets, Parser.functionBody, Parser.expressions,
      Parser.moreExpressions, Parser.expression, Parser.moreOperands, Parser.operand, Parser.simple,
      Parser.suffixed, Parser.suffixes, Parser.primary, Parser.arguments, Parser.tableConstructor,
      Parser.tableFields, Parser.tableField] <;>
    exact fail_yields

variable {n : Nat}

theorem forall_mem_cons {P : α → Prop} {a : α} {l : List α} (ha : P a) (hl : ∀ b ∈ l, P b) :
    ∀ b ∈ a :: l, P b :=
  List.forall_mem_cons.2 ⟨ha, hl⟩

theorem forall_mem_reverse {P : α → Prop} {l : List α} (h : ∀ a ∈ l, P a) : ∀ a ∈ l.reverse, P a :=
  fun a mem => h a (List.mem_reverse.1 mem)

theorem block_succ (h : Parses N n) : Yields N (Parser.block (n + 1)) (Block.Regular N) := by
  rw [Parser.block]
  exact line_yields.bind fun _ _ => (h.statements [] (by simp)).bind fun r hr => .pure (.intro hr.1 hr.2)

theorem statements_succ (h : Parses N n) (seen : List Stmt) (hseen : ∀ s ∈ seen, s.Regular N) :
    Yields N (Parser.statements (n + 1) seen) fun r =>
      (∀ s ∈ r.1, s.Regular N) ∧ ∀ ret, r.2 = some ret → ∀ e ∈ ret.values, e.Regular N := by
  rw [Parser.statements]
  refine skipSemicolons_yields.bind fun _ _ => peek_yields.bind fun kind _ => ?_
  refine .ite (h.returnStatement.bind fun ret hret => .pure ⟨forall_mem_reverse hseen, ?_⟩)
    (.ite (.pure ⟨forall_mem_reverse hseen, by simp⟩) (h.statement.bind fun stmt hstmt => ?_))
  · rintro _ ⟨⟩
    exact hret
  · exact h.statements _ (forall_mem_cons hstmt hseen)

theorem returnStatement_succ (h : Parses N n) :
    Yields N (Parser.returnStatement (n + 1)) fun ret => ∀ e ∈ ret.values, e.Regular N := by
  rw [Parser.returnStatement]
  refine line_yields.bind fun _ _ => expect_yields.bind fun _ _ => peek_yields.bind fun kind _ => ?_
  have rest : ∀ (values : List Expr) (line : Nat), (∀ e ∈ values, e.Regular N) →
      Yields N (do
        let _ ← eat (.symbol .semicolon)
        if endsBlock (← peek) then pure ⟨values, line⟩ else fail .returnNotLast)
        fun ret : Return => ∀ e ∈ ret.values, e.Regular N := fun values line hvalues =>
    eat_yields.bind fun _ _ => peek_yields.bind fun _ _ => .ite (.pure hvalues) fail_yields
  exact .ite (.bind (P := fun es => ∀ e ∈ es, e.Regular N) (.pure (by simp)) fun _ hvalues =>
    rest _ _ hvalues) (h.expressions.bind fun _ hvalues => rest _ _ hvalues)

theorem statement_succ (h : Parses N n) : Yields N (Parser.statement (n + 1)) (Stmt.Regular N) := by
  rw [Parser.statement]
  refine line_yields.bind fun line _ => peek_yields.bind fun kind _ => ?_
  split
  · refine advance_yields.bind fun _ _ => h.conditional.bind fun clause hclause => ?_
    refine (h.moreClauses [clause] (by simpa using hclause)).bind fun r hr => ?_
    exact expect_yields.bind fun _ _ => .pure (.if (fun c hc => (hr.1 c hc).1)
      (fun c hc => (hr.1 c hc).2) hr.2)
  · exact advance_yields.bind fun _ _ => (h.expression 0).bind fun cond hcond =>
      h.loopBody.bind fun body hbody => .pure (.while hcond hbody)
  · exact h.loopBody.bind fun body hbody => .pure (.block hbody)
  · exact advance_yields.bind fun _ _ => expectName_yields.bind fun first _ =>
      eat_yields.bind fun _ _ => .ite (h.numericFor first line) (h.genericFor first line)
  · exact advance_yields.bind fun _ _ => h.block.bind fun body hbody =>
      expect_yields.bind fun _ _ => (h.expression 0).bind fun cond hcond =>
        .pure (.repeat hbody hcond)
  · exact advance_yields.bind fun _ _ => (functionName_yields n).bind fun name _ =>
      (h.functionBody _ _).bind fun body hbody => .pure (.function hbody)
  · refine advance_yields.bind fun _ _ => eat_yields.bind fun _ _ => .ite ?_ ?_
    · exact expectName_yields.bind fun name _ => (h.functionBody _ _).bind fun body hbody =>
        .pure (.localFunction hbody)
    · refine (nameList_yields n).bind fun names _ => eat_yields.bind fun _ _ => .ite ?_ ?_
      · exact h.expressions.bind fun values hvalues => .pure (.local hvalues)
      · exact .bind (P := fun es => ∀ e ∈ es, e.Regular N) (.pure (by simp)) fun values hvalues =>
          .pure (.local hvalues)
  · exact advance_yields.bind fun _ _ => .pure .break
  · exact h.expressionStatement line

theorem conditional_succ (h : Parses N n) :
    Yields N (Parser.conditional (n + 1)) fun c => c.cond.Regular N ∧ c.body.Regular N := by
  rw [Parser.conditional]
  exact (h.expression 0).bind fun _ hcond => expect_yields.bind fun _ _ => h.block.bind fun _ hbody =>
    .pure ⟨hcond, hbody⟩

theorem moreClauses_succ (h : Parses N n) (seen : List Clause)
    (hseen : ∀ c ∈ seen, c.cond.Regular N ∧ c.body.Regular N) :
    Yields N (Parser.moreClauses (n + 1) seen) fun r =>
      (∀ c ∈ r.1, c.cond.Regular N ∧ c.body.Regular N) ∧ ∀ b, r.2 = some b → b.Regular N := by
  rw [Parser.moreClauses]
  refine eat_yields.bind fun _ _ => .ite (h.conditional.bind fun clause hclause => ?_)
    (eat_yields.bind fun _ _ => .ite (h.block.bind fun body hbody => .pure ?_) (.pure ?_))
  · exact h.moreClauses _ (forall_mem_cons hclause hseen)
  · refine ⟨forall_mem_reverse hseen, ?_⟩
    rintro _ ⟨⟩
    exact hbody
  · exact ⟨forall_mem_reverse hseen, by simp⟩

theorem loopBody_succ (h : Parses N n) : Yields N (Parser.loopBody (n + 1)) (Block.Regular N) := by
  rw [Parser.loopBody]
  exact expect_yields.bind fun _ _ => h.block.bind fun _ hbody => expect_yields.bind fun _ _ => .pure hbody

theorem numericFor_succ (h : Parses N n) (var : String) (line : Nat) :
    Yields N (Parser.numericFor (n + 1) var line) (Stmt.Regular N) := by
  rw [Parser.numericFor]
  refine (h.expression 0).bind fun start hstart => expect_yields.bind fun _ _ =>
    (h.expression 0).bind fun limit hlimit => eat_yields.bind fun _ _ => .ite ?_ ?_
  · refine Yields.bind (P := fun o => ∀ e, o = some e → e.Regular N)
      ((h.expression 0).map fun e he => ?_) fun step hstep => ?_
    · rintro _ ⟨⟩
      exact he
    · exact h.loopBody.bind fun body hbody => .pure (.numericFor hstart hlimit hstep hbody)
  · refine Yields.bind (P := fun o => o = none) (.pure rfl) fun step hstep => ?_
    subst hstep
    exact h.loopBody.bind fun body hbody => .pure (.numericFor hstart hlimit (by simp) hbody)

theorem genericFor_succ (h : Parses N n) (first : String) (line : Nat) :
    Yields N (Parser.genericFor (n + 1) first line) (Stmt.Regular N) := by
  rw [Parser.genericFor]
  exact (namesAfter_yields n [first]).bind fun _ hnames => expect_yields.bind fun _ _ =>
    h.expressions.bind fun _ hvalues => h.loopBody.bind fun _ hbody =>
      .pure (.genericFor (hnames (by simp)) hvalues hbody)

theorem expressionStatement_succ (h : Parses N n) (line : Nat) :
    Yields N (Parser.expressionStatement (n + 1) line) (Stmt.Regular N) := by
  rw [Parser.expressionStatement]
  refine h.suffixed.bind fun first hfirst => peek_yields.bind fun kind _ => .ite ?_
    (.ite (.pure (.call hfirst)) fail_yields)
  refine (h.moreTargets [first] (by simpa using hfirst)).bind fun targets htargets => ?_
  split
  · exact .throw
  · rename_i good
    have places : ∀ e ∈ targets, e.isAssignable = true := by simpa using good
    exact expect_yields.bind fun _ _ => h.expressions.bind fun values hvalues =>
      .pure (.assign htargets places hvalues)

theorem moreTargets_succ (h : Parses N n) (seen : List Expr) (hseen : ∀ e ∈ seen, e.Regular N) :
    Yields N (Parser.moreTargets (n + 1) seen) fun es => ∀ e ∈ es, e.Regular N := by
  rw [Parser.moreTargets]
  exact eat_yields.bind fun _ _ => .ite (h.suffixed.bind fun _ htarget =>
    h.moreTargets _ (forall_mem_cons htarget hseen)) (.pure (forall_mem_reverse hseen))

theorem functionBody_succ (h : Parses N n) (first : List String) (line : Nat) :
    Yields N (Parser.functionBody (n + 1) first line) fun f => f.body.Regular N := by
  rw [Parser.functionBody]
  exact (parameterList_yields n).bind fun _ _ => h.block.bind fun _ hbody =>
    expect_yields.bind fun _ _ => .pure hbody

theorem expressions_succ (h : Parses N n) :
    Yields N (Parser.expressions (n + 1)) fun es => ∀ e ∈ es, e.Regular N := by
  rw [Parser.expressions]
  exact (h.expression 0).bind fun _ hfirst => h.moreExpressions _ (by simpa using hfirst)

theorem moreExpressions_succ (h : Parses N n) (seen : List Expr) (hseen : ∀ e ∈ seen, e.Regular N) :
    Yields N (Parser.moreExpressions (n + 1) seen) fun es => ∀ e ∈ es, e.Regular N := by
  rw [Parser.moreExpressions]
  exact eat_yields.bind fun _ _ => .ite ((h.expression 0).bind fun _ hvalue =>
    h.moreExpressions _ (forall_mem_cons hvalue hseen)) (.pure (forall_mem_reverse hseen))

theorem expression_succ (h : Parses N n) (power : Nat) :
    Yields N (Parser.expression (n + 1) power) (Expr.Regular N) := by
  rw [Parser.expression]
  exact h.operand.bind fun _ hfirst => h.moreOperands power _ hfirst

theorem moreOperands_succ (h : Parses N n) (power : Nat) (lhs : Expr) (hlhs : lhs.Regular N) :
    Yields N (Parser.moreOperands (n + 1) power lhs) (Expr.Regular N) := by
  rw [Parser.moreOperands]
  refine peek_yields.bind fun kind _ => ?_
  split
  · exact .ite (.pure hlhs) (line_yields.bind fun _ _ => advance_yields.bind fun _ _ =>
      (h.expression _).bind fun rhs hrhs => h.moreOperands power _ (.binary hlhs hrhs))
  · exact .pure hlhs

theorem operand_succ (h : Parses N n) : Yields N (Parser.operand (n + 1)) (Expr.Regular N) := by
  rw [Parser.operand]
  refine line_yields.bind fun line _ => peek_yields.bind fun kind _ => ?_
  split
  · exact advance_yields.bind fun _ _ => (h.expression _).bind fun inner hinner =>
      .pure (.unary hinner)
  · exact h.simple

theorem literal_regular {kind : Kind} (hkind : ∀ x, kind = .number x → N x) {line : Nat} {e : Expr}
    (h : literal? kind line = some e) : e.Regular N := by
  unfold literal? at h
  split at h <;> cases h
  · exact .number (hkind _ rfl)
  · exact .string
  · exact .nil
  · exact .boolean
  · exact .boolean
  · exact .varargs

theorem simple_succ (h : Parses N n) : Yields N (Parser.simple (n + 1)) (Expr.Regular N) := by
  rw [Parser.simple]
  refine line_yields.bind fun line _ => peek_yields.bind fun kind hkind => ?_
  split
  · rename_i value found
    exact advance_yields.bind fun _ _ => .pure (literal_regular hkind found)
  · exact .ite (advance_yields.bind fun _ _ => (h.functionBody _ _).bind fun body hbody =>
      .pure (.function hbody)) (.ite h.tableConstructor h.suffixed)

theorem suffixed_succ (h : Parses N n) : Yields N (Parser.suffixed (n + 1)) (Expr.Regular N) := by
  rw [Parser.suffixed]
  exact h.primary.bind fun _ hfirst => h.suffixes _ hfirst

theorem suffixes_succ (h : Parses N n) (e : Expr) (he : e.Regular N) :
    Yields N (Parser.suffixes (n + 1) e) (Expr.Regular N) := by
  rw [Parser.suffixes]
  have call : ∀ line, Yields N (do let args ← Parser.arguments n; Parser.suffixes n (.call e args line))
      (Expr.Regular N) := fun line =>
    h.arguments.bind fun args hargs => h.suffixes _ (.call he hargs)
  refine line_yields.bind fun line _ => peek_yields.bind fun kind _ => ?_
  split
  · exact advance_yields.bind fun _ _ => expectName_yields.bind fun name _ =>
      h.suffixes _ (.field he)
  · exact advance_yields.bind fun _ _ => (h.expression 0).bind fun key hkey =>
      expect_yields.bind fun _ _ => h.suffixes _ (.index he hkey)
  · exact advance_yields.bind fun _ _ => expectName_yields.bind fun method _ =>
      h.arguments.bind fun args hargs => h.suffixes _ (.methodCall he hargs)
  · exact call line
  · exact call line
  · exact call line
  · exact .pure he

theorem primary_succ (h : Parses N n) : Yields N (Parser.primary (n + 1)) (Expr.Regular N) := by
  rw [Parser.primary]
  refine line_yields.bind fun line _ => peek_yields.bind fun kind _ => ?_
  split
  · exact advance_yields.bind fun _ _ => .pure .name
  · exact advance_yields.bind fun _ _ => (h.expression 0).bind fun inner hinner =>
      expect_yields.bind fun _ _ => .pure (.paren hinner)
  · exact fail_yields

theorem arguments_succ (h : Parses N n) :
    Yields N (Parser.arguments (n + 1)) fun es => ∀ e ∈ es, e.Regular N := by
  rw [Parser.arguments]
  refine line_yields.bind fun line _ => peek_yields.bind fun kind _ => ?_
  split
  · exact advance_yields.bind fun _ _ => eat_yields.bind fun _ _ => .ite (.pure (by simp))
      (h.expressions.bind fun args hargs => expect_yields.bind fun _ _ => .pure hargs)
  · exact h.tableConstructor.bind fun table htable => .pure (by simpa using htable)
  · exact advance_yields.bind fun _ _ => .pure (by simpa using .string)
  · exact fail_yields

theorem tableConstructor_succ (h : Parses N n) :
    Yields N (Parser.tableConstructor (n + 1)) (Expr.Regular N) := by
  rw [Parser.tableConstructor]
  exact line_yields.bind fun _ _ => expect_yields.bind fun _ _ => (h.tableFields [] (by simp)).bind
    fun _ hfields => expect_yields.bind fun _ _ => .pure (.table hfields)

theorem tableFields_succ (h : Parses N n) (seen : List TableField)
    (hseen : ∀ f ∈ seen, f.Regular N) :
    Yields N (Parser.tableFields (n + 1) seen) fun fs => ∀ f ∈ fs, f.Regular N := by
  rw [Parser.tableFields]
  refine peek_yields.bind fun _ _ => .ite (.pure (forall_mem_reverse hseen))
    (h.tableField.bind fun field hfield => eat_yields.bind fun _ _ => ?_)
  have more := forall_mem_cons hfield hseen
  exact .ite (h.tableFields _ more) (eat_yields.bind fun _ _ => .ite (h.tableFields _ more)
    (.pure (forall_mem_reverse more)))

theorem tableField_succ (h : Parses N n) :
    Yields N (Parser.tableField (n + 1)) (TableField.Regular N) := by
  rw [Parser.tableField]
  refine peek_yields.bind fun first _ => peekSecond_yields.bind fun second _ => ?_
  split
  · exact advance_yields.bind fun _ _ => (h.expression 0).bind fun key hkey =>
      expect_yields.bind fun _ _ => expect_yields.bind fun _ _ =>
        (h.expression 0).bind fun value hvalue => .pure (.keyed hkey hvalue)
  · exact advance_yields.bind fun _ _ => advance_yields.bind fun _ _ =>
      (h.expression 0).bind fun value hvalue => .pure (.named hvalue)
  · exact (h.expression 0).bind fun value hvalue => .pure (.positional hvalue)

theorem succ (h : Parses N n) : Parses N (n + 1) where
  block := h.block_succ
  statements := h.statements_succ
  returnStatement := h.returnStatement_succ
  statement := h.statement_succ
  conditional := h.conditional_succ
  moreClauses := h.moreClauses_succ
  loopBody := h.loopBody_succ
  numericFor := h.numericFor_succ
  genericFor := h.genericFor_succ
  expressionStatement := h.expressionStatement_succ
  moreTargets := h.moreTargets_succ
  functionBody := h.functionBody_succ
  expressions := h.expressions_succ
  moreExpressions := h.moreExpressions_succ
  expression := h.expression_succ
  moreOperands := h.moreOperands_succ
  operand := h.operand_succ
  simple := h.simple_succ
  suffixed := h.suffixed_succ
  suffixes := h.suffixes_succ
  primary := h.primary_succ
  arguments := h.arguments_succ
  tableConstructor := h.tableConstructor_succ
  tableFields := h.tableFields_succ
  tableField := h.tableField_succ

end Parses

theorem parses (N : Float → Prop) (n : Nat) : Parses N n := by
  induction n with
  | zero => exact .zero
  | succ n ih => exact ih.succ

/-- Parsed programs are regular. -/
theorem parseTokens_regular {tokens : List Token} {body : Block} (numbers : Numbered N tokens)
    (parsed : parseTokens tokens = .ok body) : body.Regular N := by
  have whole : Yields N (chunk (16 * tokens.length + 16)) (Block.Regular N) :=
    (parses N _).block.bind fun _ hbody => expect_yields.bind fun _ _ => .pure hbody
  unfold parseTokens StateT.run' at parsed
  cases ran : chunk (16 * tokens.length + 16) tokens with
  | error e => simp [ran, Functor.map, Except.map] at parsed
  | ok r =>
    simp only [ran, Functor.map, Except.map, Except.ok.injEq] at parsed
    exact parsed ▸ (whole tokens numbers r.1 r.2 ran).1

theorem parse_regular {source : String} {body : Block} (parsed : parse source = .ok body) :
    body.Regular fun _ => True := by
  unfold parse at parsed
  cases lexed : Lexer.tokens source with
  | error e => simp [lexed, Bind.bind, Except.bind] at parsed
  | ok tokens =>
    simp only [lexed, Bind.bind, Except.bind] at parsed
    exact parseTokens_regular (by intro t _ n _; trivial) parsed

end Parser

end ScriptEngine
