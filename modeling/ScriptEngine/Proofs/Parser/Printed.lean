import ScriptEngine.Proofs.Parser.Reads

/-!
# Printed expressions are read back

An expression is read by a loop that goes on from what it has read so far, operators in one loop and
suffixes in another. `Expr.Readable` therefore says where such a loop arrives: after the tokens of the
expression it goes on with the expression, whatever comes next, and has spent at most sixteen steps for a
token. Every rule that reads an expression follows from this.
-/

set_option linter.dupNamespace false

namespace ScriptEngine

/-! ## Erased lists -/

@[simp] theorem eraseExprs_eq (es : List Expr) : eraseExprs es = es.map Expr.erase := by
  induction es with
  | nil => simp [eraseExprs]
  | cons e es ih => simp [eraseExprs, ih]

@[simp] theorem eraseFields_eq (fields : List TableField) :
    eraseFields fields = fields.map TableField.erase := by
  induction fields with
  | nil => simp [eraseFields]
  | cons field fields ih => simp [eraseFields, ih]

@[simp] theorem eraseClauses_eq (clauses : List Clause) :
    eraseClauses clauses = clauses.map Clause.erase := by
  induction clauses with
  | nil => simp [eraseClauses]
  | cons clause clauses ih => simp [eraseClauses, ih]

@[simp] theorem eraseStmts_eq (stmts : List Stmt) : eraseStmts stmts = stmts.map Stmt.erase := by
  induction stmts with
  | nil => simp [eraseStmts]
  | cons stmt stmts ih => simp [eraseStmts, ih]

namespace Expr

theorem isAssignable_erase (e : Expr) : e.erase.isAssignable = e.isAssignable := by
  cases e <;> simp [erase, isAssignable]

theorem isCall_erase (e : Expr) : e.erase.isCall = e.isCall := by
  cases e <;> simp [erase, isCall]

end Expr

theorem Level.le_trans {a b c : Level} (h : a ≤ b) (h' : b ≤ c) : a ≤ c :=
  Nat.le_trans (m := b.rank) h h'

theorem Level.isAdmitted_mono {a b : Level} {power : Nat} (other : a ≠ .prefixed) (le : a ≤ b)
    (h : a.isAdmitted power) : b.isAdmitted power := by
  cases a with
  | prefixed => exact absurd rfl other
  | simple => cases b <;> first | rfl | exact absurd le (by decide)
  | _ =>
    have low := of_decide_eq_true h
    cases b <;> first | rfl | exact absurd le (by decide) | exact decide_eq_true (by omega)

namespace Parser

/-- The climb that reads an operation reads its left operand. -/
theorem left_admitted {op : BinaryOp} {level : Level} {power : Nat} (h : op.level.isAdmitted power)
    (le : op.leftLevel ≤ level) : level.isAdmitted power := by
  have grouped : op.level ≤ op.leftLevel := by cases op <;> decide
  have other : op.level ≠ .prefixed := by cases op <;> decide
  exact Level.isAdmitted_mono other (Level.le_trans grouped le) h

/-- What may follow an operation may follow its right operand. -/
theorem leftLevel_le_rightLevel {next op : BinaryOp} (h : next.leftLevel ≤ op.level) :
    next.leftLevel ≤ op.rightLevel := by
  revert h
  cases next <;> cases op <;> decide

/-! ## First and next tokens -/

/-- Whether an expression can start with a token of this kind. -/
def beginsExpr : Kind → Bool
  | .number _ | .string _ | .name _ => true
  | .keyword k => k = .nil_ ∨ k = .true_ ∨ k = .false_ ∨ k = .function_ ∨ k = .not_
  | .symbol s => s = .dotDotDot ∨ s = .leftParen ∨ s = .leftBrace ∨ s = .minus ∨ s = .hash
  | .eof => false

/-- Whether an expression that suffixes can follow can start with a token of this kind. -/
def beginsPrefix : Kind → Bool
  | .name _ | .symbol .leftParen => true
  | _ => false

/-- Whether a token of this kind starts a suffix. -/
def beginsSuffix : Kind → Bool
  | .string _ => true
  | .symbol s => s = .dot ∨ s = .leftBracket ∨ s = .colon ∨ s = .leftParen ∨ s = .leftBrace
  | _ => false

/-- Whether a token of this kind cannot go on with an expression. -/
def endsExpr (kind : Kind) : Bool := !beginsSuffix kind && (binaryOp? kind).isNone

/-- Whether a token of this kind cannot go on with a list of expressions. -/
def endsList (kind : Kind) : Bool := endsExpr kind && kind ≠ .symbol .comma

/-- Whether a token of this kind can follow a statement. -/
def endsStatement (kind : Kind) : Bool := kind = .symbol .semicolon || endsBlock kind

theorem endsExpr_of_endsList {kind : Kind} (h : endsList kind) : endsExpr kind :=
  (Bool.and_eq_true_iff.1 h).1

theorem ne_comma_of_endsList {kind : Kind} (h : endsList kind) : kind ≠ .symbol .comma :=
  of_decide_eq_true (Bool.and_eq_true_iff.1 h).2

theorem endsStatement_of_endsBlock {kind : Kind} (h : endsBlock kind) : endsStatement kind := by
  simp [endsStatement, h]

theorem endsList_of_endsStatement {kind : Kind} (h : endsStatement kind) : endsList kind := by
  cases kind with
  | keyword k => cases k <;> first | rfl | cases h
  | symbol s => cases s <;> first | rfl | cases h
  | number n => cases h
  | string s => cases h
  | name s => cases h
  | eof => rfl

/-- After an expression of the level a token of this kind does not go on with its last part. -/
def Leaves (level : Level) (kind : Kind) : Prop :=
  beginsSuffix kind = false ∧
    ∀ op left right, binaryOp? kind = some (op, left, right) → op.leftLevel ≤ level

theorem Leaves.of_endsExpr {level : Level} {kind : Kind} (h : endsExpr kind) : Leaves level kind := by
  obtain ⟨suffix, operator⟩ := Bool.and_eq_true_iff.1 h
  refine ⟨by simpa using suffix, fun op left right found => ?_⟩
  simp [found] at operator

theorem Leaves.operator {level : Level} {op : BinaryOp} (h : op.leftLevel ≤ level) :
    Leaves level op.kind := by
  refine ⟨by cases op <;> rfl, fun op' left right found => ?_⟩
  rw [binaryOp?_kind, Option.some.injEq, Prod.mk.injEq] at found
  exact found.1 ▸ h

theorem Leaves.mono {level level' : Level} {kind : Kind} (h : Leaves level kind) (le : level ≤ level') :
    Leaves level' kind :=
  ⟨h.1, fun op left right found => Level.le_trans (h.2 op left right found) le⟩

theorem print_begins : ∀ e : Expr, ∃ kind kinds, e.print = kind :: kinds ∧ beginsExpr kind
  | .nil _ | .number .. | .string .. | .varargs _ | .name .. => ⟨_, _, by rw [Expr.print], rfl⟩
  | .boolean b _ => ⟨_, _, by rw [Expr.print], by cases b <;> rfl⟩
  | .paren .. | .function _ | .table .. => ⟨_, _, by rw [Expr.print], rfl⟩
  | .unary op _ _ => ⟨_, _, by rw [Expr.print], by cases op <;> rfl⟩
  | .binary _ first _ _ | .index first _ _ | .field first _ _ | .call first _ _
  | .methodCall first _ _ _ => by
    obtain ⟨kind, kinds, spelled, begins⟩ := print_begins first
    rw [Expr.print, spelled]
    exact ⟨kind, _, rfl, begins⟩

theorem print_begins_prefix : ∀ e : Expr, e.isWellFormed → e.isPrefix →
    ∃ (kind : Kind) (kinds : List Kind), e.print = kind :: kinds ∧ beginsPrefix kind
  | .name .., _, _ => ⟨_, _, by rw [Expr.print], rfl⟩
  | .paren .., _, _ => ⟨_, _, by rw [Expr.print], rfl⟩
  | .index first _ _, formed, _ | .field first _ _, formed, _ | .call first _ _, formed, _
  | .methodCall first _ _ _, formed, _ => by
    simp only [Expr.isWellFormed, Bool.and_eq_true] at formed
    obtain ⟨kind, kinds, spelled, begins⟩ := print_begins_prefix first (by simp [formed]) (by simp [formed])
    rw [Expr.print, spelled]
    exact ⟨kind, _, rfl, begins⟩

/-- An expression does not look like a named field. -/
theorem print_ne_named {kinds : List Kind} (other : ∀ kind rest, kinds = kind :: rest →
      kind ≠ .symbol .assign) : ∀ (e : Expr) (name : String) (rest : List Kind),
    e.print ++ kinds ≠ .name name :: .symbol .assign :: rest
  | .nil _, _, _ | .number .., _, _ | .string .., _, _ | .varargs _, _, _ | .boolean .., _, _
  | .paren .., _, _ | .function _, _, _ | .table .., _, _ => by simp [Expr.print]
  | .unary op _ _, _, _ => by cases op <;> simp [Expr.print, UnaryOp.kind]
  | .name .., _, rest => by
    rw [Expr.print]
    intro same
    exact other _ rest (List.cons.inj same).2 rfl
  | .binary op first _ _, _, _ => by
    rw [Expr.print, List.append_assoc]
    exact print_ne_named (by rintro _ _ ⟨⟩; cases op <;> simp [BinaryOp.kind]) first _ _
  | .index first _ _, _, _ | .field first _ _, _, _ | .call first _ _, _, _
  | .methodCall first _ _ _, _, _ => by
    rw [Expr.print, List.append_assoc]
    exact print_ne_named (by rintro _ _ ⟨⟩; simp) first _ _

theorem second_ne_assign {name : String} {kinds : List Kind} {kind : Kind} {e : Expr}
    (spelled : e.print = .name name :: kinds) (other : kind ≠ .symbol .assign) :
    kinds.head?.getD kind ≠ .symbol .assign := by
  intro same
  cases kinds with
  | nil => exact other same
  | cons second rest =>
    refine @print_ne_named [kind] ?_ e name (rest ++ [kind]) ?_
    · rintro _ _ ⟨⟩
      exact other
    · rw [spelled, show second = _ from same]
      rfl

/-! ## Where the loops arrive -/

/-- What follows the expression is read by the loop over operators, which has read the expression. -/
def Climbs (e : Expr) : Prop :=
  ∀ ⦃n power : Nat⦄ ⦃kinds : List Kind⦄ ⦃F : Kind → Prop⦄ ⦃Q : Expr → Prop⦄,
    16 * e.print.length + 4 ≤ n → e.level.isAdmitted power →
    (∀ k, F k → Leaves e.level (kinds.head?.getD k)) →
    (∀ m e', n ≤ m + 16 * e.print.length → e'.erase = e.erase →
      Reads (moreOperands m power e') kinds F Q) →
    Reads (operand n >>= moreOperands n power) (e.print ++ kinds) F Q

/-- What follows the expression is read by the loop over suffixes, which has read the expression. -/
def Grows (e : Expr) : Prop :=
  ∀ ⦃n : Nat⦄ ⦃kinds : List Kind⦄ ⦃F : Kind → Prop⦄ ⦃Q : Expr → Prop⦄, 16 * e.print.length + 1 ≤ n →
    (∀ m e', n ≤ m + 16 * e.print.length → e'.erase = e.erase → Reads (suffixes m e') kinds F Q) →
    Reads (primary n >>= suffixes n) (e.print ++ kinds) F Q

/-- The expression is read where an operand may stand, and where suffixes may follow if they may. -/
structure Readable (e : Expr) : Prop where
  climbs : Climbs e
  grows : e.isPrefix → Grows e

variable {e : Expr} {n : Nat}

namespace Climbs

theorem expression (h : Climbs e) {power : Nat} (admitted : e.level.isAdmitted power)
    (enough : 16 * e.print.length + 5 ≤ n) : Reads (Parser.expression n power) e.print
      (fun k => Leaves e.level k ∧ ∀ op left right, binaryOp? k = some (op, left, right) → left ≤ power)
      (·.erase = e.erase) := by
  obtain ⟨n, rfl⟩ : ∃ k, n = k + 1 := ⟨n - 1, by omega⟩
  rw [Parser.expression, ← List.append_nil e.print]
  refine h (by omega) admitted (fun k hk => hk.1) fun m e' enough' same => ?_
  obtain ⟨m, rfl⟩ : ∃ k, m = k + 1 := ⟨m - 1, by omega⟩
  rw [moreOperands]
  refine .meets fun k hk => ?_
  split
  · rename_i op left right found
    rw [if_pos (hk.2 op left right found)]
    exact .pure same
  · exact .pure same

/-- An expression in a place of its own. -/
theorem whole (h : Climbs e) (enough : 16 * e.print.length + 5 ≤ n) :
    Reads (Parser.expression n 0) e.print (endsExpr ·) (·.erase = e.erase) := by
  refine (h.expression (Level.isAdmitted_zero _) enough).mono (fun k hk => ⟨.of_endsExpr hk, ?_⟩)
    fun _ h => h
  intro op left right found
  simp [endsExpr, found] at hk

/-- An expression that is an operand by itself. -/
theorem of_operand (operand : ∀ n, 16 * e.print.length + 4 ≤ n →
    Reads (operand n) e.print (Leaves e.level) (·.erase = e.erase)) : Climbs e := by
  intro n power kinds F Q enough _ leaves next
  exact (operand n enough).bind (fun e' same => next n e' (by omega) same) leaves

/-- An expression that starts with no operator. -/
theorem of_simple {kind : Kind} {kinds : List Kind} (spelled : e.print = kind :: kinds)
    (operator : unaryOp? kind = none) (simple : ∀ n, 16 * e.print.length + 3 ≤ n →
      Reads (Parser.simple n) e.print (beginsSuffix · = false) (·.erase = e.erase)) : Climbs e := by
  refine of_operand fun n enough => ?_
  obtain ⟨n, rfl⟩ : ∃ k, n = k + 1 := ⟨n - 1, by omega⟩
  have rest := simple n (by omega)
  rw [spelled] at rest ⊢
  rw [operand]
  refine .line fun line => .sees ?_
  rw [operator]
  exact rest.mono (fun k hk => hk.1) fun _ h => h

end Climbs

/-! ## Literals, operators and parentheses -/

theorem literal_readable {kind : Kind} (spelled : e.print = [kind]) (other : e.isPrefix = false)
    (operator : unaryOp? kind = none)
    (literal : ∀ line, ∃ e', literal? kind line = some e' ∧ e'.erase = e.erase) : Readable e where
  grows is := by simp [other] at is
  climbs := by
    refine .of_simple spelled operator fun n enough => ?_
    obtain ⟨n, rfl⟩ : ∃ k, n = k + 1 := ⟨n - 1, by omega⟩
    rw [spelled, Parser.simple]
    refine .line fun line => .sees ?_
    obtain ⟨e', found, same⟩ := literal line
    rw [found]
    exact .advance (.pure same)

theorem unary_readable {op : UnaryOp} {line : Nat} (h : Climbs e) (level : .prefixed ≤ e.level) :
    Readable (.unary op e line) where
  grows is := by cases is
  climbs := by
    refine .of_operand fun n enough => ?_
    obtain ⟨n, rfl⟩ : ∃ k, n = k + 1 := ⟨n - 1, by omega⟩
    rw [Expr.print, List.length_cons] at enough
    rw [Expr.print, operand]
    refine .line fun line => .sees ?_
    rw [show unaryOp? op.kind = some op by cases op <;> rfl]
    refine .advance ?_
    rw [← List.append_nil e.print]
    refine (h.expression (unary_admits.2 level) (by omega)).bind
      (fun e' same => .pure (by simp [Expr.erase, same])) fun k hk => ⟨hk.mono level, ?_⟩
    intro next left right found
    have powers := (binaryOp?_eq_some found).2
    have := left_le_unary_iff.2 (hk.2 next left right found)
    rwa [powers] at this

theorem binary_readable {op : BinaryOp} {lhs rhs : Expr} {line : Nat} (first : Climbs lhs)
    (second : Climbs rhs) (left : op.leftLevel ≤ lhs.level) (right : op.rightLevel ≤ rhs.level) :
    Readable (.binary op lhs rhs line) where
  grows is := by cases is
  climbs := by
    intro n power kinds F Q enough admitted leaves next
    rw [Expr.print, List.length_append, List.length_cons] at enough next
    rw [Expr.print, List.append_assoc]
    have admitted' := left_admitted admitted left
    refine first (by omega) admitted' (fun k _ => .operator left) fun m lhs' enough' same => ?_
    obtain ⟨m, rfl⟩ : ∃ k, m = k + 1 := ⟨m - 1, by omega⟩
    rw [moreOperands]
    refine .sees ?_
    rw [binaryOp?_kind]
    have binds : ¬ op.powers.1 ≤ power := by simpa using lt_left_iff.2 admitted
    simp only [binds, if_false]
    refine .line fun line => .advance ?_
    refine (second.expression (right_admits.2 right) (by omega)).bind (fun rhs' same' =>
      next m _ (by omega) (by simp [Expr.erase, same, same'])) fun k hk => ⟨?_, ?_⟩
    · refine ⟨(leaves k hk).1, fun op' left' right' found => ?_⟩
      exact Level.le_trans (leftLevel_le_rightLevel ((leaves k hk).2 op' left' right' found)) right
    · intro op' left' right' found
      have := left_le_right_iff.2 ((leaves k hk).2 op' left' right' found)
      rwa [(binaryOp?_eq_some found).2] at this

/-! ## Lists of expressions -/

theorem moreExpressions_reads : ∀ {es : List Expr}, (∀ e ∈ es, Climbs e) → ∀ {n : Nat} {seen : List Expr},
    16 * (printExprsAfter es).length + 1 ≤ n → Reads (moreExpressions n seen) (printExprsAfter es)
      (endsList ·) fun r => r.map Expr.erase = (seen.reverse ++ es).map Expr.erase
  | [], _, n, seen, enough => by
    obtain ⟨n, rfl⟩ : ∃ k, n = k + 1 := ⟨n - 1, by omega⟩
    rw [printExprsAfter, moreExpressions]
    exact .spares (fun k hk => ne_comma_of_endsList hk) (.pure (by simp))
  | e :: es, h, n, seen, enough => by
    obtain ⟨n, rfl⟩ : ∃ k, n = k + 1 := ⟨n - 1, by omega⟩
    simp only [printExprsAfter, List.length_cons, List.length_append] at enough
    rw [printExprsAfter, moreExpressions]
    refine .eats (.bind ((h e (by simp)).whole (by omega)) (fun e' same => ?_) fun k hk => ?_)
    · refine (moreExpressions_reads (fun e he => h e (by simp [he])) (by omega)).mono (fun _ hk => hk)
        fun r hr => ?_
      rw [hr]
      simp [same]
    · cases es with
      | nil => exact endsExpr_of_endsList hk
      | cons => rfl

theorem expressions_reads {es : List Expr} (some' : es.isEmpty = false) (h : ∀ e ∈ es, Climbs e)
    (enough : 16 * (printExprs es).length + 6 ≤ n) : Reads (expressions n) (printExprs es) (endsList ·)
      fun r => r.map Expr.erase = es.map Expr.erase := by
  obtain ⟨n, rfl⟩ : ∃ k, n = k + 1 := ⟨n - 1, by omega⟩
  cases es with
  | nil => simp at some'
  | cons e es =>
    rw [printExprs, List.length_append] at enough
    rw [printExprs, expressions]
    refine .bind ((h e (by simp)).whole (by omega)) (fun e' same => ?_) fun k hk => ?_
    · refine (moreExpressions_reads (fun e he => h e (by simp [he])) (by omega)).mono (fun _ hk => hk)
        fun r hr => ?_
      rw [hr]
      simp [same]
    · cases es with
      | nil => exact endsExpr_of_endsList hk
      | cons => rfl

theorem arguments_reads {args : List Expr} (h : ∀ e ∈ args, Climbs e) {F : Kind → Prop}
    (enough : 16 * (printExprs args).length + 7 ≤ n) :
    Reads (arguments n) (.symbol .leftParen :: (printExprs args ++ [Kind.symbol .rightParen])) F
      fun r => r.map Expr.erase = args.map Expr.erase := by
  obtain ⟨n, rfl⟩ : ∃ k, n = k + 1 := ⟨n - 1, by omega⟩
  rw [arguments]
  refine .line fun line => .sees (.advance ?_)
  cases args with
  | nil =>
    rw [printExprs]
    exact .eats (.pure rfl)
  | cons e es =>
    obtain ⟨kind, kinds, spelled, begins⟩ := print_begins e
    refine .spares (fun k _ => ?_) ?_
    · rw [printExprs, spelled]
      rintro ⟨⟩
      cases begins
    · exact (expressions_reads rfl h (by omega)).bind (fun r hr => .expect (.pure hr)) fun _ _ => rfl

/-! ## Suffixes -/

theorem Grows.suffixed (h : Grows e) (enough : 16 * e.print.length + 2 ≤ n) :
    Reads (Parser.suffixed n) e.print (beginsSuffix · = false) (·.erase = e.erase) := by
  obtain ⟨n, rfl⟩ : ∃ k, n = k + 1 := ⟨n - 1, by omega⟩
  rw [Parser.suffixed, ← List.append_nil e.print]
  refine h (by omega) fun m e' enough' same => ?_
  obtain ⟨m, rfl⟩ : ∃ k, m = k + 1 := ⟨m - 1, by omega⟩
  rw [suffixes]
  refine .line fun line => .meets fun k hk => ?_
  split
  iterate 6 cases hk
  exact .pure same

theorem Grows.readable (h : Grows e) (formed : e.isWellFormed) ( is : e.isPrefix) : Readable e where
  grows _ := h
  climbs := by
    obtain ⟨kind, kinds, spelled, begins⟩ := print_begins_prefix e formed is
    have plain : unaryOp? kind = none ∧ (∀ line, literal? kind line = none) ∧
        kind ≠ .keyword .function_ ∧ kind ≠ .symbol .leftBrace := by
      unfold beginsPrefix at begins
      split at begins
      · exact ⟨rfl, fun _ => rfl, by simp, by simp⟩
      · exact ⟨rfl, fun _ => rfl, by simp, by simp⟩
      · cases begins
    refine .of_simple spelled plain.1 fun n enough => ?_
    obtain ⟨n, rfl⟩ : ∃ k, n = k + 1 := ⟨n - 1, by omega⟩
    have rest := h.suffixed (n := n) (by omega)
    rw [spelled] at rest ⊢
    rw [Parser.simple]
    refine .line fun line => .sees ?_
    rw [plain.2.1 line]
    simpa only [plain.2.2, if_false] using rest

/-- An expression without suffixes. -/
theorem Grows.of_primary (primary : ∀ {n : Nat}, 16 * e.print.length + 1 ≤ n →
    Reads (primary n) e.print (fun _ => True) (·.erase = e.erase)) : Grows e := by
  intro n kinds F Q enough next
  exact (primary enough).bind (fun e' same => next n e' (by omega) same) fun _ _ => trivial

theorem name_readable {name : String} {line : Nat} : Readable (.name name line) := by
  refine Grows.readable (Grows.of_primary fun {n} enough => ?_) (by rw [Expr.isWellFormed]) rfl
  obtain ⟨n, rfl⟩ : ∃ k, n = k + 1 := ⟨n - 1, by omega⟩
  rw [Expr.print, primary]
  exact .line fun line => .sees (.advance (.pure (by simp [Expr.erase])))

theorem paren_readable {line : Nat} (formed : (Expr.paren e line).isWellFormed) (h : Climbs e) :
    Readable (.paren e line) := by
  refine Grows.readable (Grows.of_primary fun {n} enough => ?_) formed rfl
  obtain ⟨n, rfl⟩ : ∃ k, n = k + 1 := ⟨n - 1, by omega⟩
  simp only [Expr.print, List.length_cons, List.length_append, List.length_nil] at enough
  rw [Expr.print, primary]
  refine .line fun line => .sees (.advance ?_)
  exact (h.whole (by omega)).bind (fun e' same => .expect (.pure (by simp [Expr.erase, same])))
    fun _ _ => rfl

theorem field_readable {name : String} {line : Nat} (formed : (Expr.field e name line).isWellFormed)
    (h : Grows e) : Readable (.field e name line) := by
  refine Grows.readable (fun n kinds F Q enough next => ?_) formed rfl
  simp only [Expr.print, List.length_cons, List.length_append, List.length_nil] at enough next
  rw [Expr.print, List.append_assoc]
  refine h (by omega) fun m e' enough' same => ?_
  obtain ⟨m, rfl⟩ : ∃ k, m = k + 1 := ⟨m - 1, by omega⟩
  rw [suffixes]
  exact .line fun line => .sees (.advance (.expectName (next m _ (by omega) (by simp [Expr.erase, same]))))

theorem index_readable {key : Expr} {line : Nat} (formed : (Expr.index e key line).isWellFormed)
    (h : Grows e) (hkey : Climbs key) : Readable (.index e key line) := by
  refine Grows.readable (fun n kinds F Q enough next => ?_) formed rfl
  simp only [Expr.print, List.length_cons, List.length_append, List.length_nil] at enough next
  rw [Expr.print, List.append_assoc, List.cons_append, List.append_assoc]
  refine h (by omega) fun m e' enough' same => ?_
  obtain ⟨m, rfl⟩ : ∃ k, m = k + 1 := ⟨m - 1, by omega⟩
  rw [suffixes]
  refine .line fun line => .sees (.advance ?_)
  exact (hkey.whole (by omega)).bind (fun key' same' => .expect
    (next m _ (by omega) (by simp [Expr.erase, same, same']))) fun _ _ => rfl

theorem call_readable {args : List Expr} {line : Nat} (formed : (Expr.call e args line).isWellFormed)
    (h : Grows e) (hargs : ∀ arg ∈ args, Climbs arg) : Readable (.call e args line) := by
  refine Grows.readable (fun n kinds F Q enough next => ?_) formed rfl
  simp only [Expr.print, List.length_cons, List.length_append, List.length_nil] at enough next
  rw [Expr.print, List.append_assoc]
  refine h (by omega) fun m e' enough' same => ?_
  obtain ⟨m, rfl⟩ : ∃ k, m = k + 1 := ⟨m - 1, by omega⟩
  rw [suffixes]
  refine .line fun line => .sees ?_
  exact (arguments_reads hargs (F := fun _ => True) (by omega)).bind (fun args' same' =>
    next m _ (by omega) (by simp [Expr.erase, same, same'])) fun _ _ => trivial

theorem methodCall_readable {method : String} {args : List Expr} {line : Nat}
    (formed : (Expr.methodCall e method args line).isWellFormed) (h : Grows e)
    (hargs : ∀ arg ∈ args, Climbs arg) : Readable (.methodCall e method args line) := by
  refine Grows.readable (fun n kinds F Q enough next => ?_) formed rfl
  simp only [Expr.print, List.length_cons, List.length_append, List.length_nil] at enough next
  rw [Expr.print, List.append_assoc]
  refine h (by omega) fun m e' enough' same => ?_
  obtain ⟨m, rfl⟩ : ∃ k, m = k + 1 := ⟨m - 1, by omega⟩
  rw [suffixes]
  refine .line fun line => .sees (.advance (.expectName ?_))
  exact (arguments_reads hargs (F := fun _ => True) (by omega)).bind (fun args' same' =>
    next m _ (by omega) (by simp [Expr.erase, same, same'])) fun _ _ => trivial

/-! ## Tables -/

/-- Whether a token of this kind can follow a field. -/
def endsField (kind : Kind) : Bool := kind = .symbol .comma ∨ kind = .symbol .rightBrace

theorem endsExpr_of_endsField {kind : Kind} (h : endsField kind) : endsExpr kind := by
  obtain rfl | rfl := of_decide_eq_true h <;> rfl

def FieldReadable (field : TableField) : Prop :=
  ∀ ⦃n : Nat⦄, 16 * field.print.length + 6 ≤ n →
    Reads (tableField n) field.print (endsField ·) (·.erase = field.erase)

theorem keyed_readable {key value : Expr} (hkey : Climbs key) (hvalue : Climbs value) :
    FieldReadable (.keyed key value) := by
  intro n enough
  obtain ⟨n, rfl⟩ : ∃ k, n = k + 1 := ⟨n - 1, by omega⟩
  simp only [TableField.print, List.length_cons, List.length_append] at enough
  rw [TableField.print, tableField]
  refine .sees (.peekSecond fun k hk => .advance ?_)
  refine (hkey.whole (by omega)).bind (fun key' same => .expect (.expect ?_)) fun _ _ => rfl
  rw [← List.append_nil value.print]
  refine (hvalue.whole (by omega)).bind
    (fun value' same' => .pure (by simp [TableField.erase, same, same'])) ?_
  rintro _ rfl
  exact endsExpr_of_endsField hk

theorem named_readable {name : String} {value : Expr} (hvalue : Climbs value) :
    FieldReadable (.named name value) := by
  intro n enough
  obtain ⟨n, rfl⟩ : ∃ k, n = k + 1 := ⟨n - 1, by omega⟩
  simp only [TableField.print, List.length_cons] at enough
  rw [TableField.print, tableField]
  refine .sees (.peekSecond fun k hk => .advance (.advance ?_))
  rw [← List.append_nil value.print]
  refine (hvalue.whole (by omega)).bind
    (fun value' same => .pure (by simp [TableField.erase, same])) ?_
  rintro _ rfl
  exact endsExpr_of_endsField hk

theorem positional_readable {value : Expr} (hvalue : Climbs value) :
    FieldReadable (.positional value) := by
  intro n enough
  obtain ⟨n, rfl⟩ : ∃ k, n = k + 1 := ⟨n - 1, by omega⟩
  rw [TableField.print] at enough ⊢
  rw [tableField]
  obtain ⟨kind, kinds, spelled, begins⟩ := print_begins value
  rw [spelled]
  refine .sees (.peekSecond fun k hk => ?_)
  split
  · cases begins
  · rename_i name second
    refine absurd second (second_ne_assign spelled ?_)
    rintro rfl
    cases hk
  · rw [← spelled, ← List.append_nil value.print]
    refine (hvalue.whole (by omega)).bind (fun value' same => .pure (by simp [TableField.erase, same])) ?_
    rintro _ rfl
    exact endsExpr_of_endsField hk

theorem print_field_begins (field : TableField) :
    ∃ kind kinds, field.print = kind :: kinds ∧ kind ≠ .symbol .rightBrace := by
  cases field with
  | keyed key value => exact ⟨_, _, by rw [TableField.print], by simp⟩
  | named name value => exact ⟨_, _, by rw [TableField.print], by simp⟩
  | positional value =>
    obtain ⟨kind, kinds, spelled, begins⟩ := print_begins value
    refine ⟨kind, kinds, by rw [TableField.print, spelled], ?_⟩
    rintro rfl
    cases begins

theorem tableFields_reads : ∀ {fields : List TableField}, (∀ field ∈ fields, FieldReadable field) →
    ∀ {n : Nat} {seen : List TableField}, 16 * (printFields fields).length + 7 ≤ n →
    Reads (tableFields n seen) (printFields fields) (· = .symbol .rightBrace)
      fun r => r.map TableField.erase = (seen.reverse ++ fields).map TableField.erase
  | [], _, n, seen, enough => by
    obtain ⟨n, rfl⟩ : ∃ k, n = k + 1 := ⟨n - 1, by omega⟩
    rw [printFields, tableFields]
    refine .meets fun k hk => ?_
    rw [if_pos hk]
    exact .pure (by simp)
  | [field], h, n, seen, enough => by
    obtain ⟨n, rfl⟩ : ∃ k, n = k + 1 := ⟨n - 1, by omega⟩
    rw [printFields] at enough ⊢
    rw [tableFields]
    obtain ⟨kind, kinds, spelled, other⟩ := print_field_begins field
    rw [spelled]
    refine .sees ?_
    rw [if_neg other, ← spelled, ← List.append_nil field.print]
    refine (h field (by simp) (by omega)).bind (fun field' same => ?_) fun k hk => ?_
    · exact .spares (by rintro _ rfl; simp) (.spares (by rintro _ rfl; simp) (.pure (by simp [same])))
    · subst hk
      rfl
  | field :: next :: rest, h, n, seen, enough => by
    obtain ⟨n, rfl⟩ : ∃ k, n = k + 1 := ⟨n - 1, by omega⟩
    simp only [printFields, List.length_append, List.length_cons] at enough
    rw [printFields, tableFields]
    obtain ⟨kind, kinds, spelled, other⟩ := print_field_begins field
    rw [spelled]
    refine .sees ?_
    rw [if_neg other]
    change Reads _ ((kind :: kinds) ++ _) _ _
    rw [← spelled]
    refine (h field (by simp) (by omega)).bind (fun field' same => .eats ?_) fun k hk => rfl
    refine (tableFields_reads (fun field hfield => h field (by simp [hfield])) (by omega)).mono
      (fun _ hk => hk) fun r hr => ?_
    rw [hr]
    simp [same]

theorem table_readable {fields : List TableField} {line : Nat}
    (h : ∀ field ∈ fields, FieldReadable field) : Readable (.table fields line) where
  grows is := by cases is
  climbs := by
    refine .of_simple (by rw [Expr.print]) (show unaryOp? (.symbol .leftBrace) = none from rfl) fun n enough => ?_
    obtain ⟨n, rfl⟩ : ∃ k, n = k + 2 := ⟨n - 2, by omega⟩
    simp only [Expr.print, List.length_append, List.length_cons, List.length_nil] at enough
    rw [Expr.print, simple]
    refine .line fun line => .sees ?_
    simp only [literal?, reduceCtorEq, if_false, if_true]
    rw [tableConstructor]
    refine .line fun line => .expect ?_
    exact (tableFields_reads h (by omega)).bind
      (fun fields' same => .expect (.pure (by simpa [Expr.erase] using same))) fun _ _ => rfl

end Parser

end ScriptEngine
