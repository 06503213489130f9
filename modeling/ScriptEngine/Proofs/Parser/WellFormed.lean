import ScriptEngine.Proofs.Parser.Grammar
import ScriptEngine.Proofs.Parser.Regular

/-!
# Parsed programs are well formed

The numbers by which the parser compares operators say the same as the levels of the grammar
(`right_admits`, `left_le_right_iff`). A call of the precedence climb is therefore known by two facts:
the level of what it gives, and the operator it stops at. With these the rules of the parser give only
programs that the grammar has, by induction on the allowance (`parseTokens_isWellFormed`).
-/

set_option linter.dupNamespace false

namespace ScriptEngine

/-! ## Binding powers and levels -/

/-- How strongly the parser lets an operator bind to its left and to its right. -/
def BinaryOp.powers : BinaryOp → Nat × Nat
  | or => (1, 1)
  | and => (2, 2)
  | eq | notEq | lt | ltEq | gt | gtEq => (3, 3)
  | concat => (5, 4)
  | add | sub => (6, 6)
  | mul | div | mod => (7, 7)
  | pow => (13, 12)

/-- Whether the climb with the given power gives expressions of the level: the operators there bind more
strongly, or the climb does not ask for their strength. -/
def Level.isAdmitted (power : Nat) : Level → Bool
  | .disjunction => power < 1
  | .conjunction => power < 2
  | .comparison => power < 3
  | .concatenation => power < 5
  | .sum => power < 6
  | .product => power < 7
  | .power => power < 13
  | .prefixed | .simple => true

theorem Level.isAdmitted_zero (level : Level) : level.isAdmitted 0 := by
  cases level <;> rfl

namespace Parser

theorem binaryOp?_kind (op : BinaryOp) : binaryOp? op.kind = some (op, op.powers) := by
  cases op <;> rfl

theorem binaryOp?_eq_some {kind : Kind} {op : BinaryOp} {left right : Nat}
    (h : binaryOp? kind = some (op, left, right)) : kind = op.kind ∧ op.powers = (left, right) := by
  unfold binaryOp? at h
  split at h <;> cases h <;> exact ⟨rfl, rfl⟩

theorem lt_left_iff {op : BinaryOp} {power : Nat} : power < op.powers.1 ↔ op.level.isAdmitted power := by
  cases op <;> exact decide_eq_true_iff.symm

theorem right_admits {op : BinaryOp} {level : Level} :
    level.isAdmitted op.powers.2 ↔ op.rightLevel ≤ level := by
  cases op <;> cases level <;> decide

theorem unary_admits {level : Level} : level.isAdmitted unaryPower ↔ .prefixed ≤ level := by
  cases level <;> decide

theorem left_le_right_iff {op before : BinaryOp} :
    op.powers.1 ≤ before.powers.2 ↔ op.leftLevel ≤ before.level := by
  cases op <;> cases before <;> decide

theorem left_le_unary_iff {op : BinaryOp} : op.powers.1 ≤ unaryPower ↔ op.leftLevel ≤ .prefixed := by
  cases op <;> decide

theorem leftLevel_le_simple (op : BinaryOp) : op.leftLevel ≤ .simple := by
  cases op <;> decide

end Parser

/-! ## Lists of well-formed parts -/

theorem exprsAreWellFormed_iff {es : List Expr} :
    exprsAreWellFormed es = true ↔ ∀ e ∈ es, e.isWellFormed = true := by
  induction es with
  | nil => simp [exprsAreWellFormed]
  | cons e es ih => simp [exprsAreWellFormed, ih]

def TableField.isWellFormed (field : TableField) : Bool := fieldsAreWellFormed [field]

theorem fieldsAreWellFormed_cons {field : TableField} {rest : List TableField} :
    fieldsAreWellFormed (field :: rest) = (field.isWellFormed && fieldsAreWellFormed rest) := by
  cases field <;> simp [TableField.isWellFormed, fieldsAreWellFormed]

theorem fieldsAreWellFormed_iff {fields : List TableField} :
    fieldsAreWellFormed fields = true ↔ ∀ field ∈ fields, field.isWellFormed = true := by
  induction fields with
  | nil => simp [fieldsAreWellFormed]
  | cons field fields ih => simp [fieldsAreWellFormed_cons, ih]

def Clause.isWellFormed (clause : Clause) : Bool := clause.cond.isWellFormed && clause.body.isWellFormed

theorem clausesAreWellFormed_iff {clauses : List Clause} :
    clausesAreWellFormed clauses = true ↔ ∀ clause ∈ clauses, clause.isWellFormed = true := by
  induction clauses with
  | nil => simp [clausesAreWellFormed]
  | cons clause clauses ih =>
    obtain ⟨cond, body⟩ := clause
    simp only [clausesAreWellFormed, Bool.and_eq_true, ih, List.forall_mem_cons, Clause.isWellFormed]

theorem stmtsAreWellFormed_iff {stmts : List Stmt} :
    stmtsAreWellFormed stmts = true ↔ ∀ stmt ∈ stmts, stmt.isWellFormed = true := by
  induction stmts with
  | nil => simp [stmtsAreWellFormed]
  | cons stmt stmts ih => simp [stmtsAreWellFormed, ih]

theorem Expr.level_of_isPrefix {e : Expr} (h : e.isPrefix = true) : e.level = .simple := by
  cases e <;> first | rfl | cases h

namespace Parser

/-! ## What a rule ensures -/

/-- If `p` succeeds on the tokens, its result and the tokens it leaves satisfy `Q`. -/
def Ensures {α : Type} (p : Parser α) (tokens : List Token) (Q : α → List Token → Prop) : Prop :=
  ∀ a rest, p tokens = .ok (a, rest) → Q a rest

/-- The kind of the next token, the end of the text if there is none. -/
def nextKind : List Token → Kind
  | token :: _ => token.kind
  | [] => .eof

variable {α β : Type} {s : List Token}

namespace Ensures

theorem bind {p : Parser α} {f : α → Parser β} {P : α → List Token → Prop}
    {Q : β → List Token → Prop} (h : Ensures p s P) (next : ∀ a t, P a t → Ensures (f a) t Q) :
    Ensures (p >>= f) s Q := by
  intro b u ran
  cases first : p s with
  | error e => simp [Bind.bind, StateT.bind, Except.bind, first] at ran
  | ok r =>
    simp only [Bind.bind, StateT.bind, Except.bind, first] at ran
    exact next r.1 r.2 (h r.1 r.2 first) b u ran

/-- A rule about which nothing is needed. -/
theorem skip {p : Parser α} {f : α → Parser β} {Q : β → List Token → Prop}
    (next : ∀ a t, Ensures (f a) t Q) : Ensures (p >>= f) s Q :=
  bind (P := fun _ _ => True) (fun _ _ _ => trivial) fun a t _ => next a t

theorem pure {a : α} {Q : α → List Token → Prop} (h : Q a s) : Ensures (Pure.pure a : Parser α) s Q := by
  intro b t ran
  cases ran
  exact h

theorem throw {e : SourceError} {Q : α → List Token → Prop} :
    Ensures (MonadExcept.throw e : Parser α) s Q := by
  intro a t ran
  cases ran

theorem fail {flaw : Flaw} {Q : α → List Token → Prop} : Ensures (Parser.fail flaw : Parser α) s Q :=
  skip fun _ _ => throw

theorem ite {c : Prop} [Decidable c] {p q : Parser α} {Q : α → List Token → Prop}
    (yes : Ensures p s Q) (no : Ensures q s Q) : Ensures (if c then p else q) s Q := by
  split
  · exact yes
  · exact no

theorem peek {f : Kind → Parser β} {Q : β → List Token → Prop} (next : Ensures (f (nextKind s)) s Q) :
    Ensures (Parser.peek >>= f) s Q := by
  refine bind (P := fun kind t => kind = nextKind s ∧ t = s) (fun kind t ran => ?_) ?_
  · cases s <;> cases ran <;> exact ⟨rfl, rfl⟩
  · rintro _ _ ⟨rfl, rfl⟩
    exact next

end Ensures

theorem namesAfter_ensures {separator : Kind} (n : Nat) (seen : List String) :
    Ensures (namesAfter separator n seen) s fun names _ => seen ≠ [] → names.isEmpty = false := by
  induction n generalizing seen s with
  | zero => exact .fail
  | succ n ih =>
    refine .skip fun _ _ => .ite (.skip fun name t => ?_) (.pure fun some' => by simpa using some')
    intro names u ran _
    exact ih (name :: seen) names u ran (by simp)

theorem nameList_ensures (n : Nat) : Ensures (nameList n) s fun names _ => names.isEmpty = false :=
  .skip fun name _ names u ran => namesAfter_ensures n [name] names u ran (by simp)

/-! ## Every rule -/

/-- The operator that follows, if any, may have an expression of the level on its left. -/
def Extends (level : Level) (tokens : List Token) : Prop :=
  ∀ op left right, binaryOp? (nextKind tokens) = some (op, left, right) → op.leftLevel ≤ level

/-- No operator follows that binds more strongly than `power`. -/
def Stops (power : Nat) (tokens : List Token) : Prop :=
  ∀ op left right, binaryOp? (nextKind tokens) = some (op, left, right) → left ≤ power

theorem Extends.simple (tokens : List Token) : Extends .simple tokens :=
  fun op _ _ _ => leftLevel_le_simple op

theorem Stops.after_binary {op : BinaryOp} (h : Stops op.powers.2 s) : Extends op.level s := by
  intro next left right found
  have same := (binaryOp?_eq_some found).2
  exact left_le_right_iff.1 (same ▸ h next left right found)

theorem Stops.after_unary (h : Stops unaryPower s) : Extends .prefixed s := by
  intro next left right found
  have same := (binaryOp?_eq_some found).2
  exact left_le_unary_iff.1 (same ▸ h next left right found)

/-- With an allowance of `n` steps, every rule of the grammar gives well-formed programs. -/
structure Sound (n : Nat) : Prop where
  block : ∀ s, Ensures (block n) s fun b _ => b.isWellFormed
  statements : ∀ s seen, (∀ stmt ∈ seen, stmt.isWellFormed) → Ensures (statements n seen) s fun r _ =>
    (∀ stmt ∈ r.1, stmt.isWellFormed) ∧ ∀ ret, r.2 = some ret → ∀ e ∈ ret.values, e.isWellFormed
  returnStatement : ∀ s, Ensures (returnStatement n) s fun ret _ => ∀ e ∈ ret.values, e.isWellFormed
  statement : ∀ s, Ensures (statement n) s fun stmt _ => stmt.isWellFormed
  conditional : ∀ s, Ensures (conditional n) s fun c _ => c.isWellFormed
  moreClauses : ∀ s seen, seen ≠ [] → (∀ c ∈ seen, c.isWellFormed) →
    Ensures (moreClauses n seen) s fun r _ =>
      r.1.isEmpty = false ∧ (∀ c ∈ r.1, c.isWellFormed) ∧ ∀ b, r.2 = some b → b.isWellFormed
  loopBody : ∀ s, Ensures (loopBody n) s fun b _ => b.isWellFormed
  numericFor : ∀ s var line, Ensures (numericFor n var line) s fun stmt _ => stmt.isWellFormed
  genericFor : ∀ s first line, Ensures (genericFor n first line) s fun stmt _ => stmt.isWellFormed
  expressionStatement : ∀ s line, Ensures (expressionStatement n line) s fun stmt _ => stmt.isWellFormed
  moreTargets : ∀ s seen, seen ≠ [] → (∀ e ∈ seen, e.isWellFormed) →
    Ensures (moreTargets n seen) s fun es _ => es.isEmpty = false ∧ ∀ e ∈ es, e.isWellFormed
  functionBody : ∀ s first line, Ensures (functionBody n first line) s fun f _ =>
    f.isWellFormed ∧ first <+: f.params
  expressions : ∀ s, Ensures (expressions n) s fun es _ =>
    es.isEmpty = false ∧ ∀ e ∈ es, e.isWellFormed
  moreExpressions : ∀ s seen, seen ≠ [] → (∀ e ∈ seen, e.isWellFormed) →
    Ensures (moreExpressions n seen) s fun es _ => es.isEmpty = false ∧ ∀ e ∈ es, e.isWellFormed
  expression : ∀ s power, Ensures (expression n power) s fun e t =>
    e.isWellFormed ∧ e.level.isAdmitted power ∧ Stops power t
  moreOperands : ∀ s power lhs, lhs.isWellFormed → lhs.level.isAdmitted power → Extends lhs.level s →
    Ensures (moreOperands n power lhs) s fun e t =>
      e.isWellFormed ∧ e.level.isAdmitted power ∧ Stops power t
  operand : ∀ s, Ensures (operand n) s fun e t =>
    e.isWellFormed ∧ (∀ power, e.level.isAdmitted power) ∧ Extends e.level t
  simple : ∀ s, Ensures (simple n) s fun e _ => e.isWellFormed ∧ e.level = .simple
  suffixed : ∀ s, Ensures (suffixed n) s fun e _ => e.isWellFormed ∧ e.isPrefix
  suffixes : ∀ s e, e.isWellFormed → e.isPrefix →
    Ensures (suffixes n e) s fun e _ => e.isWellFormed ∧ e.isPrefix
  primary : ∀ s, Ensures (primary n) s fun e _ => e.isWellFormed ∧ e.isPrefix
  arguments : ∀ s, Ensures (arguments n) s fun es _ => ∀ e ∈ es, e.isWellFormed
  tableConstructor : ∀ s, Ensures (tableConstructor n) s fun e _ => e.isWellFormed ∧ e.level = .simple
  tableFields : ∀ s seen, (∀ f ∈ seen, f.isWellFormed) →
    Ensures (tableFields n seen) s fun fs _ => ∀ f ∈ fs, f.isWellFormed
  tableField : ∀ s, Ensures (tableField n) s fun f _ => f.isWellFormed

namespace Sound

/-- Without steps every rule fails. -/
theorem zero : Sound 0 := by
  constructor <;> intros <;>
    simp only [Parser.block, Parser.statements, Parser.returnStatement, Parser.statement,
      Parser.conditional, Parser.moreClauses, Parser.loopBody, Parser.numericFor, Parser.genericFor,
      Parser.expressionStatement, Parser.moreTargets, Parser.functionBody, Parser.expressions,
      Parser.moreExpressions, Parser.expression, Parser.moreOperands, Parser.operand, Parser.simple,
      Parser.suffixed, Parser.suffixes, Parser.primary, Parser.arguments, Parser.tableConstructor,
      Parser.tableFields, Parser.tableField] <;>
    exact .fail

variable {n : Nat}

theorem block_succ (h : Sound n) (s : List Token) :
    Ensures (Parser.block (n + 1)) s fun b _ => b.isWellFormed := by
  rw [Parser.block]
  refine .skip fun _ _ => (h.statements _ [] (by simp)).bind fun r t hr => .pure ?_
  obtain ⟨stmts, ret⟩ := r
  have formed := stmtsAreWellFormed_iff.2 hr.1
  cases ret with
  | none => simp [Block.isWellFormed, formed]
  | some ret =>
    have values := exprsAreWellFormed_iff.2 (hr.2 ret rfl)
    obtain ⟨values', line⟩ := ret
    simpa [Block.isWellFormed, formed] using values

theorem statements_succ (h : Sound n) (s : List Token) (seen : List Stmt)
    (hseen : ∀ stmt ∈ seen, stmt.isWellFormed) : Ensures (Parser.statements (n + 1) seen) s fun r _ =>
      (∀ stmt ∈ r.1, stmt.isWellFormed) ∧ ∀ ret, r.2 = some ret → ∀ e ∈ ret.values, e.isWellFormed := by
  rw [Parser.statements]
  refine .skip fun _ _ => .skip fun kind _ => .ite ((h.returnStatement _).bind fun ret _ hret => .pure ?_)
    (.ite (.pure ⟨Parses.forall_mem_reverse hseen, by simp⟩) ((h.statement _).bind fun stmt _ hstmt => ?_))
  · refine ⟨Parses.forall_mem_reverse hseen, ?_⟩
    rintro _ ⟨⟩
    exact hret
  · exact h.statements _ _ (Parses.forall_mem_cons hstmt hseen)

theorem returnStatement_succ (h : Sound n) (s : List Token) :
    Ensures (Parser.returnStatement (n + 1)) s fun ret _ => ∀ e ∈ ret.values, e.isWellFormed := by
  rw [Parser.returnStatement]
  refine .skip fun _ _ => .skip fun _ _ => .skip fun kind _ => ?_
  have rest : ∀ (values : List Expr) (line : Nat) (t : List Token), (∀ e ∈ values, e.isWellFormed) →
      Ensures (do
        let _ ← eat (.symbol .semicolon)
        if endsBlock (← peek) then pure ⟨values, line⟩ else fail .returnNotLast)
        t fun (ret : Return) _ => ∀ e ∈ ret.values, e.isWellFormed := fun values line t hvalues =>
    .skip fun _ _ => .skip fun _ _ => .ite (.pure hvalues) .fail
  exact .ite (.bind (P := fun es _ => ∀ e ∈ es, e.isWellFormed) (.pure (by simp)) fun _ _ hvalues =>
    rest _ _ _ hvalues) ((h.expressions _).bind fun _ _ hvalues => rest _ _ _ hvalues.2)

theorem statement_succ (h : Sound n) (s : List Token) :
    Ensures (Parser.statement (n + 1)) s fun stmt _ => stmt.isWellFormed := by
  rw [Parser.statement]
  refine .skip fun line _ => .skip fun kind _ => ?_
  split
  · refine .skip fun _ _ => (h.conditional _).bind fun clause _ hclause => ?_
    refine (h.moreClauses _ [clause] (by simp) (by simpa using hclause)).bind fun r _ hr =>
      .skip fun _ _ => .pure ?_
    obtain ⟨clauses, otherwise⟩ := r
    obtain ⟨some', formed, formed'⟩ := hr
    cases otherwise with
    | none => simp [Stmt.isWellFormed, some', clausesAreWellFormed_iff.2 formed]
    | some body => simp [Stmt.isWellFormed, some', clausesAreWellFormed_iff.2 formed, formed' body rfl]
  · exact .skip fun _ _ => (h.expression _ 0).bind fun cond _ hcond =>
      (h.loopBody _).bind fun body _ hbody => .pure (by simp [Stmt.isWellFormed, hcond.1, hbody])
  · exact (h.loopBody _).bind fun body _ hbody => .pure (by simp [Stmt.isWellFormed, hbody])
  · exact .skip fun _ _ => .skip fun first _ => .skip fun _ _ =>
      .ite (h.numericFor _ first line) (h.genericFor _ first line)
  · exact .skip fun _ _ => (h.block _).bind fun body _ hbody => .skip fun _ _ =>
      (h.expression _ 0).bind fun cond _ hcond => .pure (by simp [Stmt.isWellFormed, hcond.1, hbody])
  · refine .skip fun _ _ => .skip fun name _ => (h.functionBody _ _ _).bind fun body _ hbody => .pure ?_
    rw [Stmt.isWellFormed, hbody.1]
    cases method : name.method with
    | none => rfl
    | some m =>
      obtain ⟨more, same⟩ := hbody.2
      simp [← same, method]
  · refine .skip fun _ _ => .skip fun _ _ => .ite ?_ ?_
    · exact .skip fun name _ => (h.functionBody _ _ _).bind fun body _ hbody =>
        .pure (by simp [Stmt.isWellFormed, hbody.1])
    · refine (nameList_ensures n).bind fun names _ hnames => .skip fun _ _ => .ite ?_ ?_
      · exact (h.expressions _).bind fun values _ hvalues =>
          .pure (by simp [Stmt.isWellFormed, hnames, exprsAreWellFormed_iff.2 hvalues.2])
      · exact .pure (by simp [Stmt.isWellFormed, hnames, exprsAreWellFormed])
  · exact .skip fun _ _ => .pure (by simp [Stmt.isWellFormed])
  · exact h.expressionStatement _ line

theorem conditional_succ (h : Sound n) (s : List Token) :
    Ensures (Parser.conditional (n + 1)) s fun c _ => c.isWellFormed := by
  rw [Parser.conditional]
  exact (h.expression _ 0).bind fun _ _ hcond => .skip fun _ _ => (h.block _).bind fun _ _ hbody =>
    .pure (by simp [Clause.isWellFormed, hcond.1, hbody])

theorem moreClauses_succ (h : Sound n) (s : List Token) (seen : List Clause) (some' : seen ≠ [])
    (hseen : ∀ c ∈ seen, c.isWellFormed) : Ensures (Parser.moreClauses (n + 1) seen) s fun r _ =>
      r.1.isEmpty = false ∧ (∀ c ∈ r.1, c.isWellFormed) ∧ ∀ b, r.2 = some b → b.isWellFormed := by
  rw [Parser.moreClauses]
  have some'' : seen.reverse.isEmpty = false := by simpa using some'
  refine .skip fun _ _ => .ite ((h.conditional _).bind fun clause _ hclause => ?_)
    (.skip fun _ _ => .ite ((h.block _).bind fun body _ hbody => .pure ?_) (.pure ?_))
  · exact h.moreClauses _ _ (by simp) (Parses.forall_mem_cons hclause hseen)
  · refine ⟨some'', Parses.forall_mem_reverse hseen, ?_⟩
    rintro _ ⟨⟩
    exact hbody
  · exact ⟨some'', Parses.forall_mem_reverse hseen, by simp⟩

theorem loopBody_succ (h : Sound n) (s : List Token) :
    Ensures (Parser.loopBody (n + 1)) s fun b _ => b.isWellFormed := by
  rw [Parser.loopBody]
  exact .skip fun _ _ => (h.block _).bind fun _ _ hbody => .skip fun _ _ => .pure hbody

theorem numericFor_succ (h : Sound n) (s : List Token) (var : String) (line : Nat) :
    Ensures (Parser.numericFor (n + 1) var line) s fun stmt _ => stmt.isWellFormed := by
  rw [Parser.numericFor]
  refine (h.expression _ 0).bind fun start _ hstart => .skip fun _ _ =>
    (h.expression _ 0).bind fun limit _ hlimit => .skip fun _ _ => .ite ?_ ?_
  · refine .bind (P := fun o _ => ∃ e, o = some e ∧ e.isWellFormed)
      ((h.expression _ 0).bind fun e _ he => .pure ⟨e, rfl, he.1⟩) fun step _ hstep => ?_
    obtain ⟨e, rfl, he⟩ := hstep
    exact (h.loopBody _).bind fun body _ hbody =>
      .pure (by simp [Stmt.isWellFormed, hstart.1, hlimit.1, he, hbody])
  · refine .bind (P := fun o _ => o = none) (.pure rfl) fun step _ hstep => ?_
    subst hstep
    exact (h.loopBody _).bind fun body _ hbody =>
      .pure (by simp [Stmt.isWellFormed, hstart.1, hlimit.1, hbody])

theorem genericFor_succ (h : Sound n) (s : List Token) (first : String) (line : Nat) :
    Ensures (Parser.genericFor (n + 1) first line) s fun stmt _ => stmt.isWellFormed := by
  rw [Parser.genericFor]
  refine (namesAfter_ensures n [first]).bind fun names _ hnames => .skip fun _ _ =>
    (h.expressions _).bind fun values _ hvalues => (h.loopBody _).bind fun _ _ hbody => .pure ?_
  simp [Stmt.isWellFormed, hnames (by simp), hvalues.1, exprsAreWellFormed_iff.2 hvalues.2, hbody]

theorem expressionStatement_succ (h : Sound n) (s : List Token) (line : Nat) :
    Ensures (Parser.expressionStatement (n + 1) line) s fun stmt _ => stmt.isWellFormed := by
  rw [Parser.expressionStatement]
  refine (h.suffixed _).bind fun first _ hfirst => .skip fun kind _ => .ite ?_ ?_
  · refine (h.moreTargets _ [first] (by simp) (by simpa using hfirst.1)).bind fun targets _ htargets => ?_
    split
    · exact .throw
    · rename_i good
      have places : targets.all Expr.isAssignable = true := by simpa using good
      refine .skip fun _ _ => (h.expressions _).bind fun values _ hvalues => .pure ?_
      simp [Stmt.isWellFormed, htargets.1, exprsAreWellFormed_iff.2 htargets.2, places, hvalues.1,
        exprsAreWellFormed_iff.2 hvalues.2]
  · split
    · exact .pure (by simp [Stmt.isWellFormed, hfirst.1, *])
    · exact .fail

theorem moreTargets_succ (h : Sound n) (s : List Token) (seen : List Expr) (some' : seen ≠ [])
    (hseen : ∀ e ∈ seen, e.isWellFormed) : Ensures (Parser.moreTargets (n + 1) seen) s fun es _ =>
      es.isEmpty = false ∧ ∀ e ∈ es, e.isWellFormed := by
  rw [Parser.moreTargets]
  exact .skip fun _ _ => .ite ((h.suffixed _).bind fun _ _ htarget =>
      h.moreTargets _ _ (by simp) (Parses.forall_mem_cons htarget.1 hseen))
    (.pure ⟨by simpa using some', Parses.forall_mem_reverse hseen⟩)

theorem functionBody_succ (h : Sound n) (s : List Token) (first : List String) (line : Nat) :
    Ensures (Parser.functionBody (n + 1) first line) s fun f _ =>
      f.isWellFormed ∧ first <+: f.params := by
  rw [Parser.functionBody]
  exact .skip fun _ _ => (h.block _).bind fun _ _ hbody => .skip fun _ _ =>
    .pure ⟨by simpa [FunctionBody.isWellFormed] using hbody, List.prefix_append ..⟩

theorem expressions_succ (h : Sound n) (s : List Token) :
    Ensures (Parser.expressions (n + 1)) s fun es _ =>
      es.isEmpty = false ∧ ∀ e ∈ es, e.isWellFormed := by
  rw [Parser.expressions]
  exact (h.expression _ 0).bind fun _ _ hfirst =>
    h.moreExpressions _ _ (by simp) (by simpa using hfirst.1)

theorem moreExpressions_succ (h : Sound n) (s : List Token) (seen : List Expr) (some' : seen ≠ [])
    (hseen : ∀ e ∈ seen, e.isWellFormed) : Ensures (Parser.moreExpressions (n + 1) seen) s fun es _ =>
      es.isEmpty = false ∧ ∀ e ∈ es, e.isWellFormed := by
  rw [Parser.moreExpressions]
  exact .skip fun _ _ => .ite ((h.expression _ 0).bind fun _ _ hvalue =>
      h.moreExpressions _ _ (by simp) (Parses.forall_mem_cons hvalue.1 hseen))
    (.pure ⟨by simpa using some', Parses.forall_mem_reverse hseen⟩)

theorem expression_succ (h : Sound n) (s : List Token) (power : Nat) :
    Ensures (Parser.expression (n + 1) power) s fun e t =>
      e.isWellFormed ∧ e.level.isAdmitted power ∧ Stops power t := by
  rw [Parser.expression]
  exact (h.operand _).bind fun _ _ hfirst =>
    h.moreOperands _ power _ hfirst.1 (hfirst.2.1 power) hfirst.2.2

theorem moreOperands_succ (h : Sound n) (s : List Token) (power : Nat) (lhs : Expr)
    (formed : lhs.isWellFormed) (admitted : lhs.level.isAdmitted power) (extends' : Extends lhs.level s) :
    Ensures (Parser.moreOperands (n + 1) power lhs) s fun e t =>
      e.isWellFormed ∧ e.level.isAdmitted power ∧ Stops power t := by
  rw [Parser.moreOperands]
  refine .peek ?_
  split
  · rename_i op left right found
    have powers := (binaryOp?_eq_some found).2
    split
    · refine .pure ⟨formed, admitted, fun op' left' right' found' => ?_⟩
      rw [found] at found'
      cases found'
      assumption
    · rename_i more
      refine .skip fun line _ => .skip fun _ _ => (h.expression _ right).bind fun rhs t hrhs => ?_
      have right' : right = op.powers.2 := by rw [powers]
      have left' : power < op.powers.1 := by
        rw [powers]
        exact Nat.lt_of_not_le more
      refine h.moreOperands t power _ ?_ (lt_left_iff.1 left') (Stops.after_binary (right' ▸ hrhs.2.2))
      simp [formed, hrhs.1, extends' op left right found,
        right_admits.1 (right' ▸ hrhs.2.1)]
  · rename_i none'
    exact .pure ⟨formed, admitted, fun op left right found => by simp [none'] at found⟩

theorem operand_succ (h : Sound n) (s : List Token) :
    Ensures (Parser.operand (n + 1)) s fun e t =>
      e.isWellFormed ∧ (∀ power, e.level.isAdmitted power) ∧ Extends e.level t := by
  rw [Parser.operand]
  refine .skip fun line _ => .skip fun kind _ => ?_
  split
  · refine .skip fun _ _ => (h.expression _ _).bind fun inner _ hinner =>
      .pure ⟨?_, fun _ => rfl, hinner.2.2.after_unary⟩
    simp [hinner.1, unary_admits.1 hinner.2.1]
  · refine fun e t ran => ?_
    obtain ⟨formed, level⟩ := h.simple _ e t ran
    rw [level]
    exact ⟨formed, fun _ => rfl, .simple t⟩

theorem literal_isWellFormed {kind : Kind} {line : Nat} {e : Expr} (h : literal? kind line = some e) :
    e.isWellFormed ∧ e.level = .simple := by
  unfold literal? at h
  split at h <;> cases h <;> exact ⟨by simp, rfl⟩

theorem simple_succ (h : Sound n) (s : List Token) :
    Ensures (Parser.simple (n + 1)) s fun e _ => e.isWellFormed ∧ e.level = .simple := by
  rw [Parser.simple]
  refine .skip fun line _ => .skip fun kind _ => ?_
  split
  · rename_i value found
    exact .skip fun _ _ => .pure (literal_isWellFormed found)
  · refine .ite (.skip fun _ _ => (h.functionBody _ _ _).bind fun body _ hbody =>
      .pure ⟨by simpa using hbody.1, rfl⟩) (.ite (h.tableConstructor _) ?_)
    exact fun e t ran =>
      ⟨(h.suffixed _ e t ran).1, Expr.level_of_isPrefix (h.suffixed _ e t ran).2⟩

theorem suffixed_succ (h : Sound n) (s : List Token) :
    Ensures (Parser.suffixed (n + 1)) s fun e _ => e.isWellFormed ∧ e.isPrefix := by
  rw [Parser.suffixed]
  exact (h.primary _).bind fun _ _ hfirst => h.suffixes _ _ hfirst.1 hfirst.2

theorem suffixes_succ (h : Sound n) (s : List Token) (e : Expr) (formed : e.isWellFormed)
    ( is : e.isPrefix) :
    Ensures (Parser.suffixes (n + 1) e) s fun e _ => e.isWellFormed ∧ e.isPrefix := by
  rw [Parser.suffixes]
  have call : ∀ line t, Ensures (do
      let args ← Parser.arguments n
      Parser.suffixes n (.call e args line)) t fun e _ => e.isWellFormed ∧ e.isPrefix :=
    fun line t => (h.arguments t).bind fun args _ hargs => h.suffixes _ _
      (by simp [formed, is, exprsAreWellFormed_iff.2 hargs]) rfl
  refine .skip fun line _ => .skip fun kind t => ?_
  split
  · exact .skip fun _ _ => .skip fun name _ =>
      h.suffixes _ _ (by simp [formed, is]) rfl
  · exact .skip fun _ _ => (h.expression _ 0).bind fun key _ hkey => .skip fun _ _ =>
      h.suffixes _ _ (by simp [formed, is, hkey.1]) rfl
  · exact .skip fun _ _ => .skip fun method _ => (h.arguments _).bind fun args _ hargs =>
      h.suffixes _ _ (by simp [formed, is, exprsAreWellFormed_iff.2 hargs]) rfl
  · exact call line t
  · exact call line t
  · exact call line t
  · exact .pure ⟨formed, is⟩

theorem primary_succ (h : Sound n) (s : List Token) :
    Ensures (Parser.primary (n + 1)) s fun e _ => e.isWellFormed ∧ e.isPrefix := by
  rw [Parser.primary]
  refine .skip fun line _ => .skip fun kind _ => ?_
  split
  · exact .skip fun _ _ => .pure ⟨by simp, rfl⟩
  · exact .skip fun _ _ => (h.expression _ 0).bind fun inner _ hinner => .skip fun _ _ =>
      .pure ⟨by simpa using hinner.1, rfl⟩
  · exact .fail

theorem arguments_succ (h : Sound n) (s : List Token) :
    Ensures (Parser.arguments (n + 1)) s fun es _ => ∀ e ∈ es, e.isWellFormed := by
  rw [Parser.arguments]
  refine .skip fun line _ => .skip fun kind _ => ?_
  split
  · exact .skip fun _ _ => .skip fun _ _ => .ite (.pure (by simp))
      ((h.expressions _).bind fun args _ hargs => .skip fun _ _ => .pure hargs.2)
  · exact (h.tableConstructor _).bind fun table _ htable => .pure (by simpa using htable.1)
  · exact .skip fun _ _ => .pure (by simp [Expr.isWellFormed])
  · exact .fail

theorem tableConstructor_succ (h : Sound n) (s : List Token) :
    Ensures (Parser.tableConstructor (n + 1)) s fun e _ => e.isWellFormed ∧ e.level = .simple := by
  rw [Parser.tableConstructor]
  exact .skip fun _ _ => .skip fun _ _ => (h.tableFields _ [] (by simp)).bind fun _ _ hfields =>
    .skip fun _ _ => .pure ⟨by simpa using fieldsAreWellFormed_iff.2 hfields, rfl⟩

theorem tableFields_succ (h : Sound n) (s : List Token) (seen : List TableField)
    (hseen : ∀ f ∈ seen, f.isWellFormed) :
    Ensures (Parser.tableFields (n + 1) seen) s fun fs _ => ∀ f ∈ fs, f.isWellFormed := by
  rw [Parser.tableFields]
  refine .skip fun _ _ => .ite (.pure (Parses.forall_mem_reverse hseen))
    ((h.tableField _).bind fun field _ hfield => .skip fun _ _ => ?_)
  have more : ∀ f ∈ field :: seen, f.isWellFormed := Parses.forall_mem_cons hfield hseen
  exact .ite (h.tableFields _ _ more) (.skip fun _ _ => .ite (h.tableFields _ _ more)
    (.pure (Parses.forall_mem_reverse more)))

theorem tableField_succ (h : Sound n) (s : List Token) :
    Ensures (Parser.tableField (n + 1)) s fun f _ => f.isWellFormed := by
  rw [Parser.tableField]
  refine .skip fun first _ => .skip fun second _ => ?_
  split
  · exact .skip fun _ _ => (h.expression _ 0).bind fun key _ hkey => .skip fun _ _ =>
      .skip fun _ _ => (h.expression _ 0).bind fun value _ hvalue =>
        .pure (by simp [TableField.isWellFormed, fieldsAreWellFormed, hkey.1, hvalue.1])
  · exact .skip fun _ _ => .skip fun _ _ => (h.expression _ 0).bind fun value _ hvalue =>
      .pure (by simp [TableField.isWellFormed, fieldsAreWellFormed, hvalue.1])
  · exact (h.expression _ 0).bind fun value _ hvalue =>
      .pure (by simp [TableField.isWellFormed, fieldsAreWellFormed, hvalue.1])

theorem succ (h : Sound n) : Sound (n + 1) where
  block := h.block_succ
  statements := h.statements_succ
  returnStatement := h.returnStatement_succ
  statement := h.statement_succ
  conditional := h.conditional_succ
  moreClauses := h.moreClauses_succ
  loopBody := h.loopBody_succ
  numericFor := h.numericFor_succ
  genericFor := h.genericFor_succ
  expressionStatement := h.expressionStatement_succ
  moreTargets := h.moreTargets_succ
  functionBody := h.functionBody_succ
  expressions := h.expressions_succ
  moreExpressions := h.moreExpressions_succ
  expression := h.expression_succ
  moreOperands := h.moreOperands_succ
  operand := h.operand_succ
  simple := h.simple_succ
  suffixed := h.suffixed_succ
  suffixes := h.suffixes_succ
  primary := h.primary_succ
  arguments := h.arguments_succ
  tableConstructor := h.tableConstructor_succ
  tableFields := h.tableFields_succ
  tableField := h.tableField_succ

end Sound

theorem sound (n : Nat) : Sound n := by
  induction n with
  | zero => exact .zero
  | succ n ih => exact ih.succ

/-- Whatever tokens spell, the grammar has it. -/
theorem parseTokens_isWellFormed {tokens : List Token} {body : Block}
    (parsed : parseTokens tokens = .ok body) : body.isWellFormed := by
  have whole : Ensures (chunk (16 * tokens.length + 16)) tokens fun b _ => b.isWellFormed :=
    ((sound _).block tokens).bind fun _ _ hbody => .skip fun _ _ => .pure hbody
  unfold parseTokens StateT.run' at parsed
  cases ran : chunk (16 * tokens.length + 16) tokens with
  | error e => simp [ran, Functor.map, Except.map] at parsed
  | ok r =>
    simp only [ran, Functor.map, Except.map, Except.ok.injEq] at parsed
    exact parsed ▸ whole r.1 r.2 ran

end Parser

end ScriptEngine
