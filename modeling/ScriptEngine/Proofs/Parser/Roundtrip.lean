import ScriptEngine.Proofs.Parser.Printed

/-!
# Parsing what is printed

Statements and blocks are read back as expressions are, and by induction on the tree every well-formed
program is: parsing its printed form gives it again, up to lines (`parseTokens_print`).
-/

set_option linter.dupNamespace false

namespace ScriptEngine

namespace Parser

variable {e : Expr} {n : Nat}

/-! ## Names and parameters -/

theorem namesAfter_reads {separator : Symbol} : ∀ {names : List String} {n : Nat} {seen : List String},
    names.length + 1 ≤ n → Reads (namesAfter (.symbol separator) n seen)
      (printNamesAfter separator names) (· ≠ .symbol separator) (· = seen.reverse ++ names)
  | [], n, seen, enough => by
    obtain ⟨n, rfl⟩ : ∃ k, n = k + 1 := ⟨n - 1, by omega⟩
    exact .spares (fun k hk => hk) (.pure (by simp))
  | name :: names, n, seen, enough => by
    obtain ⟨n, rfl⟩ : ∃ k, n = k + 1 := ⟨n - 1, by omega⟩
    rw [List.length_cons] at enough
    refine .eats (.expectName ((namesAfter_reads (by omega)).mono (fun _ hk => hk) fun r hr => ?_))
    simp [hr]

theorem length_printNamesAfter (separator : Symbol) (names : List String) :
    (printNamesAfter separator names).length = 2 * names.length := by
  induction names with
  | nil => rfl
  | cons name names ih =>
    simp only [printNamesAfter, List.length_cons, ih]
    omega

theorem nameList_reads {names : List String} (some' : names.isEmpty = false)
    (enough : (printNames names).length ≤ n) :
    Reads (nameList n) (printNames names) (· ≠ .symbol .comma) (· = names) := by
  cases names with
  | nil => simp at some'
  | cons name names =>
    rw [printNames, List.length_cons, length_printNamesAfter] at enough
    exact .expectName (namesAfter_reads (by omega))

theorem parameters_reads : ∀ {params : List String} {isVararg : Bool}, (params ≠ [] ∨ isVararg = true) →
    ∀ {n : Nat} {seen : List String}, params.length + 1 ≤ n →
    Reads (parameters n seen) (printParameters params isVararg) (· ≠ .symbol .comma)
      (· = (seen.reverse ++ params, isVararg))
  | [], false, some', _, _, _ => by simp at some'
  | [], true, _, n, seen, enough => by
    obtain ⟨n, rfl⟩ : ∃ k, n = k + 1 := ⟨n - 1, by omega⟩
    exact .eats (.pure (by simp))
  | [name], false, _, n, seen, enough => by
    obtain ⟨n, rfl⟩ : ∃ k, n = k + 1 := ⟨n - 1, by omega⟩
    exact .spares (fun _ _ => by simp [printParameters]) (.expectName (.spares (fun _ hk => hk) (.pure (by simp))))
  | [name], true, _, n, seen, enough => by
    obtain ⟨n, rfl⟩ : ∃ k, n = k + 1 := ⟨n - 1, by omega⟩
    rw [List.length_cons] at enough
    refine .spares (fun _ _ => by simp [printParameters]) (.expectName (.eats ?_))
    exact (@parameters_reads [] true (.inr rfl) n _ (by simpa using enough)).mono (fun _ hk => hk)
      fun r hr => by simp [hr]
  | name :: next :: rest, isVararg, _, n, seen, enough => by
    obtain ⟨n, rfl⟩ : ∃ k, n = k + 1 := ⟨n - 1, by omega⟩
    rw [List.length_cons] at enough
    refine .spares (fun _ _ => by simp [printParameters]) (.expectName (.eats ?_))
    exact (@parameters_reads (next :: rest) isVararg (.inl (by simp)) n _ (by omega)).mono
      (fun _ hk => hk) fun r hr => by simp [hr]

theorem length_le_printParameters (params : List String) (isVararg : Bool) :
    params.length ≤ (printParameters params isVararg).length := by
  cases params with
  | nil => simp
  | cons name rest =>
    simp only [printParameters, List.length_cons, List.length_append, length_printNamesAfter]
    omega

theorem parameterList_reads {params : List String} {isVararg : Bool} {F : Kind → Prop}
    (enough : (printParameters params isVararg).length + 1 ≤ n) : Reads (parameterList n)
      (.symbol .leftParen :: (printParameters params isVararg ++ [Kind.symbol .rightParen])) F
      (· = (params, isVararg)) := by
  have := length_le_printParameters params isVararg
  rw [parameterList]
  refine .expect ?_
  by_cases written : params ≠ [] ∨ isVararg = true
  · have other : ∃ kind kinds, printParameters params isVararg = kind :: kinds ∧
        kind ≠ .symbol .rightParen := by
      match params, isVararg, written with
      | [], true, _ => exact ⟨_, _, rfl, by simp⟩
      | name :: rest, _, _ => exact ⟨_, _, rfl, by simp⟩
    obtain ⟨kind, kinds, spelled, other⟩ := other
    have rest : Reads (do let params ← parameters n []; expect (.symbol .rightParen); pure params)
        (printParameters params isVararg ++ [Kind.symbol .rightParen]) F (· = (params, isVararg)) :=
      (parameters_reads written (by omega)).bind (fun r hr => .expect (.pure hr)) fun _ _ => by simp
    rw [spelled] at rest ⊢
    refine .sees ?_
    rw [if_neg other]
    exact rest
  · obtain ⟨rfl, rfl⟩ : params = [] ∧ isVararg = false := by simpa using written
    refine .sees ?_
    rw [if_pos rfl]
    exact .given (.expect (.pure rfl))

theorem functionName_reads {name : FunctionName} (enough : name.print.length ≤ n) :
    Reads (functionName n) name.print (· = .symbol .leftParen) (· = name) := by
  obtain ⟨root, fields, method⟩ := name
  simp only [FunctionName.print, List.cons_append, List.length_cons, List.length_append,
    length_printNamesAfter] at enough
  rw [functionName]
  refine .expectName (.bind (namesAfter_reads (Nat.le_trans ?_ enough)) ?_ fun k hk => ?_)
  · show fields.length + 1 ≤ _
    omega
  · rintro _ rfl
    cases method with
    | none => exact .spares (by rintro _ rfl; simp) (.given (.pure rfl))
    | some method => exact .eats (.map (.expectName (.pure rfl)))
  · cases method with
    | none =>
      subst hk
      simp
    | some method => simp

/-! ## Blocks and functions -/

def StmtReadable (stmt : Stmt) : Prop :=
  ∀ ⦃n : Nat⦄, 16 * stmt.print.length + 4 ≤ n →
    Reads (statement n) stmt.print (endsStatement ·) (·.erase = stmt.erase)

def BlockReadable (body : Block) : Prop :=
  ∀ ⦃n : Nat⦄, 16 * body.print.length + 6 ≤ n →
    Reads (block n) body.print (endsBlock ·) (·.erase = body.erase)

/-- The function is read after its first parameters, which are known from elsewhere. -/
def BodyReadable (f : FunctionBody) : Prop :=
  ∀ ⦃n line : Nat⦄ ⦃first params : List String⦄ ⦃F : Kind → Prop⦄, f.params = first ++ params →
    16 * (f.print first.length).length ≤ n →
    Reads (functionBody n first line) (f.print first.length) F (·.erase = f.erase)

/-- Whether a statement can start with a token of this kind. -/
def beginsStatement (kind : Kind) : Bool :=
  kind ≠ .symbol .semicolon ∧ kind ≠ .keyword .return_ ∧ endsBlock kind = false

theorem beginsStatement_of_beginsPrefix {kind : Kind} (h : beginsPrefix kind) : beginsStatement kind := by
  unfold beginsPrefix at h
  split at h
  · rfl
  · rfl
  · cases h

theorem isPrefix_of_isAssignable (h : e.isAssignable) : e.isPrefix := by
  cases e <;> first | rfl | cases h

theorem isPrefix_of_isCall (h : e.isCall) : e.isPrefix := by
  cases e <;> first | rfl | cases h

theorem print_stmt_begins {stmt : Stmt} (formed : stmt.isWellFormed) :
    ∃ kind kinds, stmt.print = kind :: kinds ∧ beginsStatement kind := by
  cases stmt with
  | «local» names values line => cases values <;> exact ⟨_, _, by rw [Stmt.print], rfl⟩
  | assign targets values line =>
    cases targets with
    | nil => simp [Stmt.isWellFormed] at formed
    | cons target rest =>
      simp only [Stmt.isWellFormed, Bool.and_eq_true, List.all_cons, exprsAreWellFormed] at formed
      obtain ⟨kind, kinds, spelled, begins⟩ := print_begins_prefix target (by simp [formed])
        (isPrefix_of_isAssignable (by simp [formed]))
      exact ⟨kind, _, by rw [Stmt.print, printExprs, spelled]; rfl, beginsStatement_of_beginsPrefix begins⟩
  | call e =>
    simp only [Stmt.isWellFormed, Bool.and_eq_true] at formed
    obtain ⟨kind, kinds, spelled, begins⟩ := print_begins_prefix e formed.2 (isPrefix_of_isCall formed.1)
    exact ⟨kind, kinds, by rw [Stmt.print, spelled], beginsStatement_of_beginsPrefix begins⟩
  | «if» clauses otherwise line => cases otherwise <;> exact ⟨_, _, by rw [Stmt.print], rfl⟩
  | numericFor var start limit step body line => cases step <;> exact ⟨_, _, by rw [Stmt.print], rfl⟩
  | _ => exact ⟨_, _, by rw [Stmt.print], rfl⟩

theorem not_beginsExpr {kind : Kind} (h : endsBlock kind = true ∨ kind = .symbol .semicolon) :
    beginsExpr kind = false := by
  obtain h | rfl := h
  · cases kind with
    | keyword k => cases k <;> first | rfl | cases h
    | eof => rfl
    | _ => cases h
  · rfl

theorem returnStatement_reads {ret : Return} (h : ∀ e ∈ ret.values, Climbs e)
    (enough : 16 * ret.print.length ≤ n) :
    Reads (returnStatement n) ret.print (endsBlock ·) (·.erase = ret.erase) := by
  obtain ⟨values, line⟩ := ret
  replace h : ∀ e ∈ values, Climbs e := h
  simp only [Return.print, List.length_cons] at enough
  obtain ⟨n, rfl⟩ : ∃ k, n = k + 1 := ⟨n - 1, by omega⟩
  have rest : ∀ (values' : List Expr) (line' : Nat), values'.map Expr.erase = values.map Expr.erase →
      Reads (do
        let _ ← eat (.symbol .semicolon)
        if endsBlock (← peek) then pure ⟨values', line'⟩ else fail .returnNotLast) [] (endsBlock ·)
        fun ret : Return => ret.erase = (Return.mk values line).erase := by
    intro values' line' same
    refine .spares (by rintro _ hk rfl; cases hk) (.meets fun k hk => ?_)
    rw [if_pos hk]
    exact .pure (by simp [Return.erase, same])
  rw [Return.print, returnStatement]
  refine .line fun line => .expect ?_
  cases values with
  | nil =>
    rw [printExprs]
    refine .meets fun k hk => ?_
    rw [if_pos (.inl hk)]
    exact .given ((rest [] line rfl).mono (by rintro _ rfl; exact hk) fun _ h => h)
  | cons e es =>
    obtain ⟨kind, kinds, spelled, begins⟩ := print_begins e
    have other : ¬ (endsBlock kind = true ∨ kind = .symbol .semicolon) := fun ends => by
      simp [not_beginsExpr ends] at begins
    have values := (expressions_reads rfl h (n := n) (by omega)).bind (fun values' same =>
      rest values' line same) fun k hk => endsList_of_endsStatement (endsStatement_of_endsBlock hk)
    rw [List.append_nil, printExprs, spelled] at values
    rw [printExprs, spelled]
    refine .sees ?_
    rw [if_neg other]
    exact values

theorem statements_semicolon {seen : List Stmt} {kinds : List Kind} {F : Kind → Prop}
    {Q : List Stmt × Option Return → Prop} (h : Reads (statements (n + 1) seen) kinds F Q) :
    Reads (statements (n + 1) seen) (.symbol .semicolon :: kinds) F Q := by
  intro tokens next rest spelled hnext
  obtain ⟨t, after, rfl, ht, hafter⟩ := List.map_eq_cons_iff.1 spelled
  obtain ⟨r, ran, hr⟩ := h after next rest hafter hnext
  refine ⟨r, ?_, hr⟩
  have skips : skipSemicolons (t :: (after ++ next :: rest)) = skipSemicolons (after ++ next :: rest) := by
    simp [skipSemicolons, modify, modifyGet, MonadStateOf.modifyGet, StateT.modifyGet, ht]
  rw [statements] at ran ⊢
  rw [← ran]
  simp only [Bind.bind, StateT.bind, List.cons_append, skips]

theorem printStmts_cons {stmt : Stmt} {stmts : List Stmt} {ret : Option (List Kind)} :
    stmts = [] ∧ ret = none ∧ printStmts (stmt :: stmts) ret = stmt.print ∨
      printStmts (stmt :: stmts) ret = stmt.print ++ .symbol .semicolon :: printStmts stmts ret := by
  match stmts, ret with
  | [], none => exact .inl ⟨rfl, rfl, by rw [printStmts]⟩
  | [], some _ => exact .inr (by rw [printStmts.eq_def])
  | _ :: _, _ => exact .inr (by rw [printStmts]; simp)

theorem statements_reads : ∀ {stmts : List Stmt}, (∀ stmt ∈ stmts, StmtReadable stmt) →
    (∀ stmt ∈ stmts, stmt.isWellFormed) → ∀ {ret : Option Return},
    (∀ r, ret = some r → ∀ e ∈ r.values, Climbs e) → ∀ {n : Nat} (seen : List Stmt),
    16 * (printStmts stmts (ret.map Return.print)).length + 5 ≤ n →
    Reads (statements n seen) (printStmts stmts (ret.map Return.print)) (endsBlock ·) fun r =>
      r.1.map Stmt.erase = (seen.reverse ++ stmts).map Stmt.erase ∧
      r.2.map Return.erase = ret.map Return.erase
  | [], _, _, none, _, n, seen, enough => by
    obtain ⟨n, rfl⟩ : ∃ k, n = k + 1 := ⟨n - 1, by omega⟩
    rw [statements]
    refine .unseparated (by rintro _ hk rfl; cases hk) (.meets fun k hk => ?_)
    rw [if_neg (by rintro rfl; cases hk), if_pos hk]
    exact .pure (by simp)
  | [], _, _, some ret, hret, n, seen, enough => by
    obtain ⟨n, rfl⟩ : ∃ k, n = k + 1 := ⟨n - 1, by omega⟩
    have spelled : printStmts [] ((some ret).map Return.print) = ret.print := by simp [printStmts]
    rw [spelled] at enough ⊢
    have rest := returnStatement_reads (hret ret rfl) (n := n) (by omega)
    obtain ⟨values, line⟩ := ret
    rw [← List.append_nil (Return.print _), statements]
    refine .unseparated (fun _ _ => by simp [Return.print]) ?_
    rw [Return.print] at rest ⊢
    refine .sees ?_
    rw [if_pos rfl]
    exact rest.bind (fun ret' same => .pure (by simp [same])) fun _ hk => hk
  | stmt :: stmts, h, formed, ret, hret, n, seen, enough => by
    obtain ⟨n, rfl⟩ : ∃ k, n = k + 2 := ⟨n - 2, by omega⟩
    obtain ⟨kind, kinds, spelled, begins⟩ := print_stmt_begins (formed stmt (by simp))
    obtain ⟨notSemicolon, notReturn, notEnd⟩ := of_decide_eq_true begins
    -- Whatever follows the statement, the rest of the block is read from there.
    have tail : ∃ more, printStmts (stmt :: stmts) (ret.map Return.print) = stmt.print ++ more ∧
        (∀ k, endsBlock k → endsStatement (more.head?.getD k)) ∧ ∀ seen,
          Reads (statements (n + 1) seen) more (endsBlock ·) fun r =>
            r.1.map Stmt.erase = (seen.reverse ++ stmts).map Stmt.erase ∧
            r.2.map Return.erase = ret.map Return.erase := by
      have rest (seen : List Stmt) (enough : 16 * (printStmts stmts (ret.map Return.print)).length + 5 ≤ n + 1) :=
        statements_reads (fun stmt mem => h stmt (by simp [mem]))
          (fun stmt mem => formed stmt (by simp [mem])) hret seen enough
      obtain ⟨rfl, isNone, same⟩ | same := @printStmts_cons stmt stmts (ret.map Return.print)
      · obtain rfl : ret = none := by simpa using isNone
        rw [same, spelled, List.length_cons] at enough
        refine ⟨[], by simpa using same, fun _ hk => endsStatement_of_endsBlock hk, fun seen => ?_⟩
        simpa [printStmts] using rest seen (by simp [printStmts]; omega)
      · rw [same, List.length_append, List.length_cons] at enough
        exact ⟨_, same, fun _ _ => rfl, fun seen => statements_semicolon (rest seen (by omega))⟩
    obtain ⟨more, same, ends, rest⟩ := tail
    rw [same] at enough ⊢
    rw [List.length_append] at enough
    have first : Reads (statement (n + 1) >>= fun stmt => statements (n + 1) (stmt :: seen))
        (stmt.print ++ more) (endsBlock ·) fun r =>
          r.1.map Stmt.erase = (seen.reverse ++ stmt :: stmts).map Stmt.erase ∧
          r.2.map Return.erase = ret.map Return.erase := by
      refine (h stmt (by simp) (by omega)).bind (fun stmt' erased => ?_) ends
      simpa [erased] using rest (stmt' :: seen)
    rw [statements]
    rw [spelled] at first ⊢
    refine .unseparated (fun _ _ => notSemicolon) (.sees ?_)
    rw [if_neg notReturn, if_neg (by simp [notEnd])]
    exact first

theorem block_readable {stmts : List Stmt} {ret : Option Return} {line : Nat}
    (h : ∀ stmt ∈ stmts, StmtReadable stmt) (formed : ∀ stmt ∈ stmts, stmt.isWellFormed)
    (hret : ∀ r, ret = some r → ∀ e ∈ r.values, Climbs e) : BlockReadable ⟨stmts, ret, line⟩ := by
  intro n enough
  obtain ⟨n, rfl⟩ : ∃ k, n = k + 1 := ⟨n - 1, by omega⟩
  have spelled : (Block.mk stmts ret line).print = printStmts stmts (ret.map Return.print) := by
    cases ret <;> simp [Block.print]
  have erased (b : Block) : b.erase = ⟨b.stmts.map Stmt.erase, b.ret.map Return.erase, 0⟩ := by
    obtain ⟨stmts, ret, line⟩ := b
    cases ret <;> simp [Block.erase]
  rw [spelled] at enough ⊢
  rw [block, ← List.append_nil (printStmts _ _)]
  refine .line fun line' => (statements_reads h formed hret _ (by omega)).bind (fun r hr => .pure ?_)
    fun _ hk => hk
  simpa [erased] using hr

theorem body_readable {params : List String} {isVararg : Bool} {body : Block} {line : Nat}
    (h : BlockReadable body) : BodyReadable ⟨params, isVararg, body, line⟩ := by
  intro n line' first params' F same enough
  replace same : params = first ++ params' := same
  subst same
  rw [FunctionBody.print, List.drop_left] at enough ⊢
  simp only [List.length_cons, List.length_append, List.length_nil] at enough
  obtain ⟨n, rfl⟩ : ∃ k, n = k + 1 := ⟨n - 1, by omega⟩
  rw [functionBody, show ∀ kinds : List Kind, .symbol .leftParen :: (printParameters params' isVararg ++
    .symbol .rightParen :: kinds) = (.symbol .leftParen :: (printParameters params' isVararg ++
      [Kind.symbol .rightParen])) ++ kinds by simp]
  refine (parameterList_reads (F := fun _ => True) (by omega)).bind ?_ fun _ _ => trivial
  rintro _ rfl
  exact (h (by omega)).bind
    (fun body' same => .expect (.pure (by simp [FunctionBody.erase, same]))) fun _ _ => rfl

theorem function_readable {f : FunctionBody} (h : BodyReadable f) : Readable (.function f) where
  grows is := by cases is
  climbs := by
    refine .of_simple (by rw [Expr.print]) (show unaryOp? (.keyword .function_) = none from rfl) fun n enough => ?_
    obtain ⟨n, rfl⟩ : ∃ k, n = k + 1 := ⟨n - 1, by omega⟩
    rw [Expr.print, List.length_cons] at enough
    rw [Expr.print, simple]
    refine .line fun line => .sees ?_
    simp only [literal?, if_true]
    refine .advance ?_
    rw [← List.append_nil (f.print 0)]
    exact (@h n _ [] _ (fun _ => True) rfl (by simpa using (by omega))).bind
      (fun f' same => .pure (by simp [Expr.erase, same])) fun _ _ => trivial

/-! ## Statements -/

theorem local_readable {names : List String} {values : List Expr} {line : Nat}
    (some' : names.isEmpty = false) (h : ∀ e ∈ values, Climbs e) :
    StmtReadable (.local names values line) := by
  intro n enough
  obtain ⟨n, rfl⟩ : ∃ k, n = k + 1 := ⟨n - 1, by omega⟩
  have named : ∃ name rest, printNames names = .name name :: rest := by
    cases names with
    | nil => simp at some'
    | cons name rest => exact ⟨name, _, rfl⟩
  obtain ⟨name, rest, spelled⟩ := named
  cases values with
  | nil =>
    rw [Stmt.print, List.length_cons] at enough
    rw [Stmt.print, statement]
    refine .line fun line => .sees (.advance (.spares (fun _ _ => by simp [spelled]) ?_))
    rw [← List.append_nil (printNames names)]
    refine (nameList_reads some' (by omega)).bind ?_ fun k hk =>
      ne_comma_of_endsList (endsList_of_endsStatement hk)
    rintro _ rfl
    refine .spares (fun k hk => ?_) (.given (.pure (by simp [Stmt.erase])))
    rintro rfl
    cases hk
  | cons e es =>
    simp only [Stmt.print, List.length_cons, List.length_append] at enough
    rw [Stmt.print, statement]
    refine .line fun line => .sees (.advance (.spares (fun _ _ => by simp [spelled]) ?_))
    refine (nameList_reads some' (by omega)).bind ?_ fun _ _ => by simp
    rintro _ rfl
    refine .eats ?_
    rw [← List.append_nil (printExprs _)]
    exact (expressions_reads rfl h (by omega)).bind
      (fun values' same => .pure (by simpa [Stmt.erase] using same)) fun _ hk => endsList_of_endsStatement hk

theorem localFunction_readable {name : String} {f : FunctionBody} {line : Nat} (h : BodyReadable f) :
    StmtReadable (.localFunction name f line) := by
  intro n enough
  obtain ⟨n, rfl⟩ : ∃ k, n = k + 1 := ⟨n - 1, by omega⟩
  simp only [Stmt.print, List.length_cons] at enough
  rw [Stmt.print, statement]
  refine .line fun line => .sees (.advance (.eats (.expectName ?_)))
  rw [← List.append_nil (f.print 0)]
  exact (@h n _ [] _ (fun _ => True) rfl (by simpa using (by omega))).bind
    (fun f' same => .pure (by simp [Stmt.erase, same])) fun _ _ => trivial

theorem function_statement_readable {name : FunctionName} {f : FunctionBody} {line : Nat}
    (self : name.method.isNone || f.params.head? == some "self") (h : BodyReadable f) :
    StmtReadable (.function name f line) := by
  intro n enough
  obtain ⟨n, rfl⟩ : ∃ k, n = k + 1 := ⟨n - 1, by omega⟩
  have hidden : ∃ params, f.params = (if name.method.isSome then ["self"] else []) ++ params ∧
      (if name.method.isSome then ["self"] else []).length = if name.method.isSome then 1 else 0 := by
    cases method : name.method with
    | none => exact ⟨f.params, rfl, rfl⟩
    | some m =>
      have head : f.params.head? = some "self" := by simpa [method] using self
      exact ⟨f.params.tail, (List.cons_head?_tail head).symm, rfl⟩
  obtain ⟨params, same, length⟩ := hidden
  simp only [Stmt.print, List.length_cons, List.length_append, ← length] at enough
  rw [Stmt.print, statement]
  refine .line fun line => .sees (.advance ?_)
  refine (functionName_reads (by omega)).bind ?_ fun _ _ => ?_
  · rintro _ rfl
    rw [← List.append_nil (f.print _), ← length]
    exact (h (F := fun _ => True) same (by omega)).bind
      (fun f' same => .pure (by simp [Stmt.erase, same])) fun _ _ => trivial
  · obtain ⟨params, isVararg, body, line⟩ := f
    rw [FunctionBody.print]
    rfl

theorem loopBody_reads {body : Block} (h : BlockReadable body) {F : Kind → Prop}
    (enough : 16 * body.print.length + 7 ≤ n) :
    Reads (loopBody n) (.keyword .do_ :: (body.print ++ [Kind.keyword .end_])) F (·.erase = body.erase) := by
  obtain ⟨n, rfl⟩ : ∃ k, n = k + 1 := ⟨n - 1, by omega⟩
  rw [loopBody]
  refine .expect ?_
  exact (h (by omega)).bind (fun body' same => .expect (.pure same)) fun _ _ => rfl

/-- A loop or block whose last part is a body. -/
theorem loop_reads {body : Block} (h : BlockReadable body) {stmt : Stmt} {make : Block → Stmt}
    {F : Kind → Prop} (enough : 16 * body.print.length + 7 ≤ n)
    (erased : ∀ body' : Block, body'.erase = body.erase → (make body').erase = stmt.erase) :
    Reads (loopBody n >>= fun body => pure (make body))
      (.keyword .do_ :: (body.print ++ [Kind.keyword .end_])) F (·.erase = stmt.erase) := by
  rw [← List.append_nil (_ :: _)]
  exact (loopBody_reads h (F := fun _ => True) enough).bind
    (fun body' same => .pure (erased body' same)) fun _ _ => trivial

theorem do_readable {body : Block} (h : BlockReadable body) : StmtReadable (.block body) := by
  intro n enough
  obtain ⟨n, rfl⟩ : ∃ k, n = k + 1 := ⟨n - 1, by omega⟩
  simp only [Stmt.print, List.length_cons, List.length_append, List.length_nil] at enough
  rw [Stmt.print, statement]
  exact .line fun line => .sees
    (loop_reads h (by omega) fun body' same => by simp [Stmt.erase, same])

theorem while_readable {body : Block} {line : Nat} (he : Climbs e) (h : BlockReadable body) :
    StmtReadable (.while e body line) := by
  intro n enough
  obtain ⟨n, rfl⟩ : ∃ k, n = k + 1 := ⟨n - 1, by omega⟩
  simp only [Stmt.print, List.length_cons, List.length_append, List.length_nil] at enough
  rw [Stmt.print, statement]
  refine .line fun line => .sees (.advance ?_)
  refine (he.whole (by omega)).bind (fun e' same => ?_) fun _ _ => rfl
  exact loop_reads h (by omega) fun body' same' => by simp [Stmt.erase, same, same']

theorem repeat_readable {body : Block} {line : Nat} (h : BlockReadable body) (he : Climbs e) :
    StmtReadable (.repeat body e line) := by
  intro n enough
  obtain ⟨n, rfl⟩ : ∃ k, n = k + 1 := ⟨n - 1, by omega⟩
  simp only [Stmt.print, List.length_cons, List.length_append] at enough
  rw [Stmt.print, statement]
  refine .line fun line => .sees (.advance ?_)
  refine (h (by omega)).bind (fun body' same => .expect ?_) fun _ _ => rfl
  rw [← List.append_nil e.print]
  exact (he.whole (by omega)).bind (fun e' same' => .pure (by simp [Stmt.erase, same, same']))
    fun _ hk => endsExpr_of_endsList (endsList_of_endsStatement hk)

theorem break_readable {line : Nat} : StmtReadable (.break line) := by
  intro n enough
  obtain ⟨n, rfl⟩ : ∃ k, n = k + 1 := ⟨n - 1, by omega⟩
  rw [Stmt.print, statement]
  exact .line fun line => .sees (.advance (.pure (by simp [Stmt.erase])))

theorem numericFor_readable {var : String} {start limit : Expr} {step : Option Expr} {body : Block}
    {line : Nat} (hstart : Climbs start) (hlimit : Climbs limit) (hstep : ∀ e, step = some e → Climbs e)
    (h : BlockReadable body) : StmtReadable (.numericFor var start limit step body line) := by
  intro n enough
  obtain ⟨n, rfl⟩ : ∃ k, n = k + 2 := ⟨n - 2, by omega⟩
  cases step with
  | none =>
    simp only [Stmt.print, List.length_cons, List.length_append, List.length_nil] at enough
    rw [Stmt.print, statement]
    refine .line fun line => .sees (.advance (.expectName (.eats ?_)))
    rw [numericFor]
    refine (hstart.whole (by omega)).bind (fun start' same => .expect ?_) fun _ _ => rfl
    rw [List.append_nil]
    refine (hlimit.whole (by omega)).bind (fun limit' same' => .spares (fun _ _ => by simp) (.given ?_))
      fun _ _ => rfl
    exact loop_reads h (by omega) fun body' erased => by simp [Stmt.erase, same, same', erased]
  | some e =>
    simp only [Stmt.print, List.length_cons, List.length_append, List.length_nil] at enough
    rw [Stmt.print, statement]
    refine .line fun line => .sees (.advance (.expectName (.eats ?_)))
    rw [numericFor]
    refine (hstart.whole (by omega)).bind (fun start' same => .expect ?_) fun _ _ => rfl
    rw [List.append_assoc]
    refine (hlimit.whole (by omega)).bind (fun limit' same' => .eats (.map ?_)) fun _ _ => rfl
    refine ((hstep e rfl).whole (by omega)).bind (fun e' same'' => ?_) fun _ _ => rfl
    exact loop_reads h (by omega) fun body' erased => by simp [Stmt.erase, same, same', same'', erased]

theorem genericFor_readable {names : List String} {values : List Expr} {body : Block} {line : Nat}
    (some' : names.isEmpty = false) (some'' : values.isEmpty = false) (hvalues : ∀ e ∈ values, Climbs e)
    (h : BlockReadable body) : StmtReadable (.genericFor names values body line) := by
  intro n enough
  obtain ⟨n, rfl⟩ : ∃ k, n = k + 2 := ⟨n - 2, by omega⟩
  cases names with
  | nil => simp at some'
  | cons name names =>
    simp only [Stmt.print, printNames, List.length_cons, List.length_append, List.length_nil,
      length_printNamesAfter] at enough
    rw [Stmt.print, statement]
    refine .line fun line => .sees (.advance (.expectName (.spares (fun _ _ => ?_) ?_)))
    · cases names <;> simp [printNamesAfter]
    · rw [genericFor]
      refine (namesAfter_reads (by omega)).bind ?_ fun _ _ => by simp
      rintro _ rfl
      refine .expect ((expressions_reads some'' hvalues (by omega)).bind (fun values' same => ?_) fun _ _ => rfl)
      exact loop_reads h (by omega) fun body' same' => by simp [Stmt.erase, same, same']

def ClauseReadable (clause : Clause) : Prop := Climbs clause.cond ∧ BlockReadable clause.body

/-- What stands before the body of a clause, and the body. -/
theorem conditional_reads {clause : Clause} (h : ClauseReadable clause)
    (enough : 16 * (clause.cond.print.length + clause.body.print.length) + 7 ≤ n) :
    Reads (conditional n) (clause.cond.print ++ .keyword .then_ :: clause.body.print) (endsBlock ·)
      (·.erase = clause.erase) := by
  obtain ⟨n, rfl⟩ : ∃ k, n = k + 1 := ⟨n - 1, by omega⟩
  obtain ⟨cond, body⟩ := clause
  rw [conditional]
  refine (h.1.whole (by omega)).bind (fun cond' same => .expect ?_) fun _ _ => rfl
  rw [← List.append_nil body.print]
  exact (h.2 (by omega)).bind (fun body' same' => .pure (by simp [Clause.erase, same, same']))
    fun _ hk => hk

/-- The last part of an if statement. -/
def printOtherwise : Option Block → List Kind
  | some body => .keyword .else_ :: body.print
  | none => []

theorem endsBlock_otherwise {clauses : List Clause} {otherwise : Option Block} {kind : Kind}
    (h : kind = .keyword .end_) :
    endsBlock ((printClausesAfter clauses ++ printOtherwise otherwise).head?.getD kind) := by
  subst h
  cases clauses with
  | nil => cases otherwise <;> simp [printClausesAfter, printOtherwise, endsBlock]
  | cons clause clauses =>
    obtain ⟨cond, body⟩ := clause
    rw [printClausesAfter]
    rfl

theorem moreClauses_reads {otherwise : Option Block} (last : ∀ b, otherwise = some b → BlockReadable b) :
    ∀ {clauses : List Clause}, (∀ clause ∈ clauses, ClauseReadable clause) → ∀ {n : Nat} (seen : List Clause),
    16 * (printClausesAfter clauses ++ printOtherwise otherwise).length + 1 ≤ n →
    Reads (moreClauses n seen) (printClausesAfter clauses ++ printOtherwise otherwise)
      (· = .keyword .end_) fun r => r.1.map Clause.erase = (seen.reverse ++ clauses).map Clause.erase ∧
        r.2.map Block.erase = otherwise.map Block.erase
  | [], _, n, seen, enough => by
    obtain ⟨n, rfl⟩ : ∃ k, n = k + 1 := ⟨n - 1, by omega⟩
    rw [printClausesAfter, List.nil_append] at enough ⊢
    rw [moreClauses]
    cases otherwise with
    | none =>
      exact .spares (by rintro _ rfl; simp [printOtherwise])
        (.spares (by rintro _ rfl; simp [printOtherwise]) (.pure (by simp)))
    | some body =>
      rw [printOtherwise, List.length_cons] at enough
      refine .spares (fun _ _ => by simp [printOtherwise]) (.eats ?_)
      rw [← List.append_nil body.print]
      exact (last body rfl (by omega)).bind (fun body' same => .pure (by simp [same]))
        (by rintro _ rfl; rfl)
  | clause :: clauses, h, n, seen, enough => by
    obtain ⟨n, rfl⟩ : ∃ k, n = k + 1 := ⟨n - 1, by omega⟩
    have spelled : printClausesAfter (clause :: clauses) ++ printOtherwise otherwise =
        .keyword .elseif_ :: ((clause.cond.print ++ .keyword .then_ :: clause.body.print) ++
          (printClausesAfter clauses ++ printOtherwise otherwise)) := by
      obtain ⟨cond, body⟩ := clause
      simp [printClausesAfter]
    rw [spelled] at enough ⊢
    rw [List.length_cons, List.length_append, List.length_append, List.length_cons] at enough
    rw [moreClauses]
    refine .eats ((conditional_reads (h clause (by simp)) (by omega)).bind (fun clause' same => ?_)
      fun _ hk => endsBlock_otherwise hk)
    simpa [same] using moreClauses_reads last (fun c hc => h c (by simp [hc])) (n := n)
      (clause' :: seen) (by omega)

theorem if_readable {clauses : List Clause} {otherwise : Option Block} {line : Nat}
    (some' : clauses.isEmpty = false) (h : ∀ clause ∈ clauses, ClauseReadable clause)
    (last : ∀ b, otherwise = some b → BlockReadable b) : StmtReadable (.if clauses otherwise line) := by
  intro n enough
  obtain ⟨n, rfl⟩ : ∃ k, n = k + 1 := ⟨n - 1, by omega⟩
  cases clauses with
  | nil => simp at some'
  | cons clause clauses =>
    have spelled : (Stmt.if (clause :: clauses) otherwise line).print = .keyword .if_ ::
        ((clause.cond.print ++ .keyword .then_ :: clause.body.print) ++
          ((printClausesAfter clauses ++ printOtherwise otherwise) ++ [Kind.keyword .end_])) := by
      obtain ⟨cond, body⟩ := clause
      cases otherwise <;> simp [Stmt.print, printClauses, printOtherwise]
    have erased (clauses : List Clause) (otherwise : Option Block) (line : Nat) :
        (Stmt.if clauses otherwise line).erase =
          .if (clauses.map Clause.erase) (otherwise.map Block.erase) 0 := by
      cases otherwise <;> simp [Stmt.erase]
    rw [spelled] at enough ⊢
    rw [List.length_cons, List.length_append, List.length_append, List.length_cons,
      List.length_append] at enough
    rw [statement]
    refine .line fun line => .sees (.advance ?_)
    refine (conditional_reads (h clause (by simp)) (by omega)).bind (fun clause' same => ?_) fun _ _ => ?_
    · refine (moreClauses_reads last (fun c hc => h c (by simp [hc])) _ (by omega)).bind
        (fun r hr => .expect (.pure ?_)) fun _ _ => rfl
      rw [erased, erased, hr.1, hr.2]
      simp [same]
    · simpa using @endsBlock_otherwise clauses otherwise _ rfl

/-! ## Assignments and calls -/

/-- A statement that is no other statement is an assignment or a call. -/
theorem statement_reads {kind : Kind} {kinds : List Kind} {F : Kind → Prop} {Q : Stmt → Prop}
    (begins : beginsPrefix kind) (h : ∀ line, Reads (expressionStatement n line) (kind :: kinds) F Q) :
    Reads (statement (n + 1)) (kind :: kinds) F Q := by
  rw [statement]
  refine .line fun line => .sees ?_
  unfold beginsPrefix at begins
  split at begins
  · exact h line
  · exact h line
  · cases begins

theorem call_statement_readable (formed : e.isWellFormed) ( is : e.isCall) (h : Grows e) :
    StmtReadable (.call e) := by
  intro n enough
  obtain ⟨n, rfl⟩ : ∃ k, n = k + 2 := ⟨n - 2, by omega⟩
  rw [Stmt.print] at enough ⊢
  obtain ⟨kind, kinds, spelled, begins⟩ := print_begins_prefix e formed (isPrefix_of_isCall is)
  have whole (line : Nat) : Reads (expressionStatement (n + 1) line) e.print (endsStatement ·)
      (·.erase = (Stmt.call e).erase) := by
    rw [expressionStatement, ← List.append_nil e.print]
    refine (h.suffixed (by omega)).bind (fun e' same => .meets fun k hk => ?_) fun k hk =>
      (@Leaves.of_endsExpr .simple _ (endsExpr_of_endsList (endsList_of_endsStatement hk))).1
    have isCall : e'.isCall := by rw [← Expr.isCall_erase, same, Expr.isCall_erase, is]
    rw [if_neg (by rintro (rfl | rfl) <;> cases hk), if_pos isCall]
    exact .pure (by simp [Stmt.erase, same])
  rw [spelled] at whole ⊢
  exact statement_reads begins whole

theorem moreTargets_reads : ∀ {targets : List Expr}, (∀ e ∈ targets, Grows e) → ∀ {n : Nat} (seen : List Expr),
    16 * (printExprsAfter targets).length + 1 ≤ n → Reads (moreTargets n seen) (printExprsAfter targets)
      (· = .symbol .assign) fun r => r.map Expr.erase = (seen.reverse ++ targets).map Expr.erase
  | [], _, n, seen, enough => by
    obtain ⟨n, rfl⟩ : ∃ k, n = k + 1 := ⟨n - 1, by omega⟩
    rw [printExprsAfter, moreTargets]
    exact .spares (by rintro _ rfl; simp) (.pure (by simp))
  | e :: targets, h, n, seen, enough => by
    obtain ⟨n, rfl⟩ : ∃ k, n = k + 1 := ⟨n - 1, by omega⟩
    simp only [printExprsAfter, List.length_cons, List.length_append] at enough
    rw [printExprsAfter, moreTargets]
    refine .eats (.bind ((h e (by simp)).suffixed (by omega)) (fun e' same => ?_) fun k hk => ?_)
    · simpa [same] using moreTargets_reads (fun e he => h e (by simp [he])) (n := n)
        (e' :: seen) (by omega)
    · subst hk
      cases targets <;> rfl

theorem find?_eq_none_of_erase {targets targets' : List Expr}
    (erased : targets'.map Expr.erase = targets.map Expr.erase)
    (places : ∀ e ∈ targets, e.isAssignable) :
    targets'.find? (fun target => !target.isAssignable) = none := by
  refine List.find?_eq_none.2 fun e mem => ?_
  obtain ⟨place, mem', same⟩ := List.mem_map.1 (erased ▸ List.mem_map_of_mem (f := Expr.erase) mem)
  have := places place mem'
  rw [← Expr.isAssignable_erase, same, Expr.isAssignable_erase] at this
  simp [this]

theorem assign_readable {targets values : List Expr} {line : Nat} (some' : targets.isEmpty = false)
    (formed : ∀ e ∈ targets, e.isWellFormed) (places : ∀ e ∈ targets, e.isAssignable)
    (htargets : ∀ e ∈ targets, Grows e) (some'' : values.isEmpty = false)
    (hvalues : ∀ e ∈ values, Climbs e) : StmtReadable (.assign targets values line) := by
  intro n enough
  obtain ⟨n, rfl⟩ : ∃ k, n = k + 2 := ⟨n - 2, by omega⟩
  cases targets with
  | nil => simp at some'
  | cons e targets =>
    simp only [Stmt.print, printExprs, List.length_cons, List.length_append] at enough
    have whole (line' : Nat) : Reads (expressionStatement (n + 1) line')
        (e.print ++ (printExprsAfter targets ++ .symbol .assign :: printExprs values)) (endsStatement ·)
        (·.erase = (Stmt.assign (e :: targets) values line).erase) := by
      have second : ∃ kind kinds, printExprsAfter targets ++ .symbol .assign :: printExprs values =
          kind :: kinds ∧ (kind = .symbol .assign ∨ kind = .symbol .comma) := by
        cases targets with
        | nil => exact ⟨_, _, by rw [printExprsAfter]; rfl, .inl rfl⟩
        | cons => exact ⟨_, _, by rw [printExprsAfter]; rfl, .inr rfl⟩
      obtain ⟨kind, kinds, spelled, second⟩ := second
      rw [expressionStatement]
      refine ((htargets e (by simp)).suffixed (by omega)).bind (fun e' same => ?_) fun k hk => ?_
      · rw [spelled]
        refine .sees ?_
        rw [if_pos second, ← spelled]
        refine (moreTargets_reads (fun e he => htargets e (by simp [he])) _ (by omega)).bind
          (fun targets' erased => ?_) fun _ _ => rfl
        replace erased : targets'.map Expr.erase = (e :: targets).map Expr.erase := by
          simpa [same] using erased
        rw [find?_eq_none_of_erase erased places]
        refine .expect ?_
        rw [← List.append_nil (printExprs values)]
        exact (expressions_reads some'' hvalues (by omega)).bind
          (fun values' same' => .pure (by simpa [Stmt.erase, same'] using erased))
          fun _ hk => endsList_of_endsStatement hk
      · rw [spelled]
        obtain rfl | rfl := second <;> rfl
    obtain ⟨kind, kinds, spelled, begins⟩ := print_begins_prefix e (formed e (by simp))
      (isPrefix_of_isAssignable (places e (by simp)))
    rw [Stmt.print, printExprs, List.append_assoc]
    rw [spelled] at whole ⊢
    exact statement_reads begins whole

/-! ## Programs -/

mutual
theorem expr_readable : ∀ e : Expr, e.isWellFormed → Readable e
  | .nil _, _ | .number .., _ | .string .., _ | .varargs _, _ =>
    literal_readable (by rw [Expr.print]) rfl rfl fun line => ⟨_, rfl, by simp [Expr.erase]⟩
  | .boolean b _, _ => by
    refine literal_readable (by rw [Expr.print]) rfl (by cases b <;> rfl) fun line => ?_
    cases b <;> exact ⟨_, rfl, by simp [Expr.erase]⟩
  | .name .., _ => name_readable
  | .paren inner _, formed => paren_readable formed
      (expr_readable inner (by simpa [Expr.isWellFormed] using formed)).climbs
  | .unary _ operand _, formed => by
    simp only [Expr.isWellFormed, Bool.and_eq_true, decide_eq_true_eq] at formed
    exact unary_readable (expr_readable operand formed.2).climbs formed.1
  | .binary _ lhs rhs _, formed => by
    simp only [Expr.isWellFormed, Bool.and_eq_true, decide_eq_true_eq, and_assoc] at formed
    obtain ⟨left, right, formed, formed'⟩ := formed
    exact binary_readable (expr_readable lhs formed).climbs (expr_readable rhs formed').climbs left right
  | .index table key _, formed => by
    have parts := formed
    simp only [Expr.isWellFormed, Bool.and_eq_true, and_assoc] at parts
    obtain ⟨is, formed', key'⟩ := parts
    exact index_readable formed ((expr_readable table formed').grows is) (expr_readable key key').climbs
  | .field table _ _, formed => by
    have parts := formed
    simp only [Expr.isWellFormed, Bool.and_eq_true] at parts
    exact field_readable formed ((expr_readable table parts.2).grows parts.1)
  | .call callee args _, formed => by
    have parts := formed
    simp only [Expr.isWellFormed, Bool.and_eq_true, and_assoc] at parts
    obtain ⟨is, formed', args'⟩ := parts
    exact call_readable formed ((expr_readable callee formed').grows is) fun arg mem =>
      (exprs_readable args args' arg mem).climbs
  | .methodCall object _ args _, formed => by
    have parts := formed
    simp only [Expr.isWellFormed, Bool.and_eq_true, and_assoc] at parts
    obtain ⟨is, formed', args'⟩ := parts
    exact methodCall_readable formed ((expr_readable object formed').grows is) fun arg mem =>
      (exprs_readable args args' arg mem).climbs
  | .function f, formed =>
    function_readable (functionBody_readable f (by simpa [Expr.isWellFormed] using formed))
  | .table fields _, formed =>
    table_readable (fields_readable fields (by simpa [Expr.isWellFormed] using formed))

theorem exprs_readable : ∀ es : List Expr, exprsAreWellFormed es → ∀ e ∈ es, Readable e
  | [], _ => by simp
  | e :: es, formed => by
    simp only [exprsAreWellFormed, Bool.and_eq_true] at formed
    exact List.forall_mem_cons.2 ⟨expr_readable e formed.1, exprs_readable es formed.2⟩

theorem fields_readable : ∀ fields : List TableField, fieldsAreWellFormed fields →
    ∀ field ∈ fields, FieldReadable field
  | [], _ => by simp
  | .keyed key value :: fields, formed => by
    simp only [fieldsAreWellFormed, Bool.and_eq_true, and_assoc] at formed
    exact List.forall_mem_cons.2 ⟨keyed_readable (expr_readable key formed.1).climbs
      (expr_readable value formed.2.1).climbs, fields_readable fields formed.2.2⟩
  | .named _ value :: fields, formed => by
    simp only [fieldsAreWellFormed, Bool.and_eq_true] at formed
    exact List.forall_mem_cons.2 ⟨named_readable (expr_readable value formed.1).climbs,
      fields_readable fields formed.2⟩
  | .positional value :: fields, formed => by
    simp only [fieldsAreWellFormed, Bool.and_eq_true] at formed
    exact List.forall_mem_cons.2 ⟨positional_readable (expr_readable value formed.1).climbs,
      fields_readable fields formed.2⟩

theorem functionBody_readable : ∀ f : FunctionBody, f.isWellFormed → BodyReadable f
  | ⟨_, _, body, _⟩, formed =>
    body_readable (blocks_readable body (by simpa [FunctionBody.isWellFormed] using formed))

theorem stmt_readable : ∀ stmt : Stmt, stmt.isWellFormed → StmtReadable stmt
  | .local names values _, formed => by
    simp only [Stmt.isWellFormed, Bool.and_eq_true, Bool.not_eq_true'] at formed
    exact local_readable formed.1 fun e mem => (exprs_readable values formed.2 e mem).climbs
  | .localFunction _ f _, formed =>
    localFunction_readable (functionBody_readable f (by simpa [Stmt.isWellFormed] using formed))
  | .assign targets values _, formed => by
    simp only [Stmt.isWellFormed, Bool.and_eq_true, Bool.not_eq_true', List.all_eq_true, and_assoc]
      at formed
    obtain ⟨some', places, formed, some'', formed'⟩ := formed
    exact assign_readable some' (exprsAreWellFormed_iff.1 formed) places (fun e mem =>
      (exprs_readable targets formed e mem).grows (isPrefix_of_isAssignable (places e mem))) some''
      fun e mem => (exprs_readable values formed' e mem).climbs
  | .call e, formed => by
    simp only [Stmt.isWellFormed, Bool.and_eq_true] at formed
    exact call_statement_readable formed.2 formed.1
      ((expr_readable e formed.2).grows (isPrefix_of_isCall formed.1))
  | .block body, formed => do_readable (blocks_readable body (by simpa [Stmt.isWellFormed] using formed))
  | .while cond body _, formed => by
    simp only [Stmt.isWellFormed, Bool.and_eq_true] at formed
    exact while_readable (expr_readable cond formed.1).climbs (blocks_readable body formed.2)
  | .repeat body cond _, formed => by
    simp only [Stmt.isWellFormed, Bool.and_eq_true] at formed
    exact repeat_readable (blocks_readable body formed.1) (expr_readable cond formed.2).climbs
  | .if clauses none _, formed => by
    simp only [Stmt.isWellFormed, Bool.and_eq_true, Bool.not_eq_true'] at formed
    exact if_readable formed.1.1 (clauses_readable clauses formed.1.2) (by simp)
  | .if clauses (some body) _, formed => by
    simp only [Stmt.isWellFormed, Bool.and_eq_true, Bool.not_eq_true'] at formed
    refine if_readable formed.1.1 (clauses_readable clauses formed.1.2) ?_
    rintro _ ⟨⟩
    exact blocks_readable body formed.2
  | .numericFor _ start limit none body _, formed => by
    simp only [Stmt.isWellFormed, Bool.and_eq_true, and_assoc] at formed
    obtain ⟨formed, formed', -, last⟩ := formed
    exact numericFor_readable (expr_readable start formed).climbs (expr_readable limit formed').climbs
      (by simp) (blocks_readable body last)
  | .numericFor _ start limit (some step) body _, formed => by
    simp only [Stmt.isWellFormed, Bool.and_eq_true, and_assoc] at formed
    obtain ⟨formed, formed', formed'', last⟩ := formed
    refine numericFor_readable (expr_readable start formed).climbs (expr_readable limit formed').climbs
      ?_ (blocks_readable body last)
    rintro _ ⟨⟩
    exact (expr_readable step formed'').climbs
  | .genericFor names values body _, formed => by
    simp only [Stmt.isWellFormed, Bool.and_eq_true, Bool.not_eq_true', and_assoc] at formed
    obtain ⟨some', some'', formed, last⟩ := formed
    exact genericFor_readable some' some'' (fun e mem => (exprs_readable values formed e mem).climbs)
      (blocks_readable body last)
  | .function _ f _, formed => by
    simp only [Stmt.isWellFormed, Bool.and_eq_true] at formed
    exact function_statement_readable formed.1 (functionBody_readable f formed.2)
  | .break _, _ => break_readable

theorem clauses_readable : ∀ clauses : List Clause, clausesAreWellFormed clauses →
    ∀ clause ∈ clauses, ClauseReadable clause
  | [], _ => by simp
  | ⟨cond, body⟩ :: clauses, formed => by
    simp only [clausesAreWellFormed, Bool.and_eq_true, and_assoc] at formed
    exact List.forall_mem_cons.2 ⟨⟨(expr_readable cond formed.1).climbs, blocks_readable body formed.2.1⟩,
      clauses_readable clauses formed.2.2⟩

theorem blocks_readable : ∀ body : Block, body.isWellFormed → BlockReadable body
  | ⟨stmts, none, _⟩, formed => by
    simp only [Block.isWellFormed, Bool.and_true] at formed
    exact block_readable (stmts_readable stmts formed) (stmtsAreWellFormed_iff.1 formed) (by simp)
  | ⟨stmts, some ⟨values, _⟩, _⟩, formed => by
    simp only [Block.isWellFormed, Bool.and_eq_true] at formed
    refine block_readable (stmts_readable stmts formed.1) (stmtsAreWellFormed_iff.1 formed.1) ?_
    rintro _ ⟨⟩ e mem
    exact (exprs_readable values formed.2 e mem).climbs

theorem stmts_readable : ∀ stmts : List Stmt, stmtsAreWellFormed stmts → ∀ stmt ∈ stmts, StmtReadable stmt
  | [], _ => by simp
  | stmt :: stmts, formed => by
    simp only [stmtsAreWellFormed, Bool.and_eq_true] at formed
    exact List.forall_mem_cons.2 ⟨stmt_readable stmt formed.1, stmts_readable stmts formed.2⟩
end

/-- Parsing a printed program gives it again, up to lines. -/
theorem parseTokens_print {body : Block} (formed : body.isWellFormed) {tokens : List Token}
    (spelled : tokens.map Token.kind = body.print ++ [Kind.eof]) :
    ∃ body', parseTokens tokens = .ok body' ∧ body'.erase = body.erase := by
  obtain ⟨before, last, rfl, hbefore, hlast⟩ := List.map_eq_append_iff.1 spelled
  obtain ⟨t, rfl, ht⟩ := List.map_eq_singleton_iff.1 hlast
  have length : before.length = body.print.length := by rw [← hbefore, List.length_map]
  obtain ⟨body', ran, same⟩ := blocks_readable body formed
    (n := 16 * (before ++ [t]).length + 16) (by simp; omega) before t [] hbefore (by rw [ht]; rfl)
  refine ⟨body', ?_, same⟩
  have ended : expect .eof [t] = .ok ((), [t]) := by
    simp [expect, peek, advance, get, getThe, MonadStateOf.get, StateT.get, Bind.bind, StateT.bind,
      Except.bind, Pure.pure, Except.pure, StateT.pure, ht]
  simp only [parseTokens, chunk, StateT.run', Bind.bind, StateT.bind, Except.bind, ran, ended]
  rfl

/-- The parser recognises the grammar: a well-formed program is what its printed form spells, up to
lines, and whatever tokens spell is well formed, so that it is spelled by its printed form as well. -/
theorem parseTokens_recognises :
    (∀ (body : Block) (tokens : List Token), body.isWellFormed →
      tokens.map Token.kind = body.print ++ [.eof] →
      ∃ body', parseTokens tokens = .ok body' ∧ body'.erase = body.erase) ∧
    ∀ (tokens : List Token) (body : Block), parseTokens tokens = .ok body → body.isWellFormed ∧
      ∀ tokens', tokens'.map Token.kind = body.print ++ [.eof] →
        ∃ body', parseTokens tokens' = .ok body' ∧ body'.erase = body.erase := by
  refine ⟨fun body tokens formed spelled => parseTokens_print formed spelled, fun tokens body parsed => ?_⟩
  have formed := parseTokens_isWellFormed parsed
  exact ⟨formed, fun tokens' spelled => parseTokens_print formed spelled⟩

/-- The program `return a ^ - b ^ c * d`. -/
def powers : Block :=
  ⟨[], some ⟨[.binary .mul (.binary .pow (.name "a" 1) (.unary .neg (.binary .pow (.name "b" 1)
    (.name "c" 1) 1) 1) 1) (.name "d" 1) 1], 1⟩, 1⟩

theorem parseTokens_recognises_powers : ∃ body,
    parseTokens ([.keyword .return_, .name "a", .symbol .caret, .symbol .minus, .name "b", .symbol .caret,
      .name "c", .symbol .star, .name "d", .eof].map (⟨·, .start⟩)) = .ok body ∧
    body.erase = powers.erase ∧ body.isWellFormed := by
  obtain ⟨body, parsed, same⟩ := parseTokens_recognises.1 powers
    ([.keyword .return_, .name "a", .symbol .caret, .symbol .minus, .name "b", .symbol .caret,
      .name "c", .symbol .star, .name "d", .eof].map (⟨·, .start⟩)) (by decide) (by decide)
  exact ⟨body, parsed, same, (parseTokens_recognises.2 _ body parsed).1⟩

end Parser

end ScriptEngine
