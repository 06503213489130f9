import ScriptEngine.Proofs.Compiler.Balance
import ScriptEngine.Proofs.Compiler.Pairing

/-!
# Names of locals do not matter

By induction over the syntax: a program and its renaming are compiled alike, because every action that
stands for a name goes through `Twin.resolve`, and the scopes of the compiler grow and shrink with those
of `Scoping` (`compileExpr_keeps` to `compileStmts_paired`). So the units of a renamed program are those
of the program, up to their display names (`compile_renamed`).
-/

set_option linter.dupNamespace false

namespace ScriptEngine

open Lexical (Renaming Proper)

variable {r : Renaming} {env own outer inner : Lexical.Scope} {n : Nat}

/-! ## What a renaming keeps -/

theorem Expr.renamed_line (e : Expr) : (e.renamed r env n).line = e.line := by
  cases e with
  | function body =>
    cases body
    rfl
  | _ => rfl

theorem Expr.renamed_isMulti (e : Expr) : (e.renamed r env n).isMulti = e.isMulti := by
  cases e <;> rfl

theorem exprsRenamed_length (es : List Expr) : (exprsRenamed r env n es).length = es.length := by
  induction es generalizing n with
  | nil => rfl
  | cons e rest ih => rw [exprsRenamed, List.length_cons, List.length_cons, ih]

theorem fieldsRenamed_isEmpty (fields : List TableField) :
    (fieldsRenamed r env n fields).isEmpty = fields.isEmpty := by
  cases fields with
  | nil => rfl
  | cons field rest => cases field <;> rfl

theorem clausesRenamed_isEmpty (clauses : List Clause) :
    (clausesRenamed r env n clauses).isEmpty = clauses.isEmpty := by
  cases clauses with
  | nil => rfl
  | cons clause rest =>
    cases clause
    rfl

theorem Lexical.Renaming.binders_length (r : Renaming) (n : Nat) (names : List String) :
    (r.binders n names).length = names.length := by
  simp [binders]

namespace Compiler

/-! ## Parts of expressions -/

theorem binary_keeps (op : BinaryOp) {lhs lhs' rhs rhs' : Compiler Unit}
    (left : Keeps r own outer lhs lhs') (right : Keeps r own outer rhs rhs') :
    Keeps r own outer (binary op lhs rhs) (binary op lhs' rhs') := by
  have strict : ∀ (opcode : Opcode) (negated : Bool), Keeps r own outer
      (do lhs; rhs; emit opcode 0 0; if negated then emit .not 0 0)
      (do lhs'; rhs'; emit opcode 0 0; if negated then emit .not 0 0) := fun opcode negated =>
    left.seq (right.seq ((emit_keeps opcode 0 0).seq
      (Paired.ite (fun _ => emit_keeps .not 0 0) fun _ => nothing_keeps)))
  cases op with
  | and =>
    refine newLabel_paired.value fun takeRhs takeRhs' same => newLabel_paired.value fun done done' same' => ?_
    subst same same'
    exact left.seq ((emitJump_keeps _ _ _).seq ((emitJump_keeps _ _ _).seq
      ((placeLabel_keeps _).seq ((pop_keeps 1).seq (right.seq (placeLabel_keeps _))))))
  | or =>
    refine newLabel_paired.value fun done done' same => ?_
    subst same
    exact left.seq ((emitJump_keeps _ _ _).seq ((pop_keeps 1).seq (right.seq (placeLabel_keeps _))))
  | _ => exact strict _ _

theorem loopGuard_keeps (v limit step : Nat) :
    Keeps r own outer (loopGuard v limit step) (loopGuard v limit step) := by
  have slot : ∀ slot, Keeps r own outer (getSlot slot) (getSlot slot) := getSlot_keeps
  have op : ∀ op, Keeps r own outer (emit op 0 0) (emit op 0 0) := fun op => emit_keeps op 0 0
  refine (loadConstant_keeps _).seq ((slot step).seq ((op .less).seq ((slot v).seq ((slot limit).seq
    ((op .lessEq).seq ((op .and).seq ?_))))))
  exact (slot step).seq ((loadConstant_keeps _).seq ((op .less).seq ((slot limit).seq ((slot v).seq
    ((op .lessEq).seq ((op .and).seq (op .or)))))))

theorem readPath_keeps (proper : Proper r n (own ++ outer)) {root : String} (other : root ≠ r.fresh)
    (fields : List String) :
    Keeps r own outer (readPath root fields) (readPath (r.use (own ++ outer) root) fields) := by
  refine (readVar_keeps proper other).seq ?_
  induction fields with
  | nil => exact nothing_keeps
  | cons field rest ih => exact ((loadConstant_keeps _).seq (emit_keeps .getTable 0 0)).seq ih

/-- Places that differ in names only. -/
inductive SamePlace (r : Renaming) (env : Lexical.Scope) : Place → Place → Prop
  | variable {name : String} (other : name ≠ r.fresh) :
    SamePlace r env (.variable name) (.variable (r.use env name))
  | entry (slot : Nat) : SamePlace r env (.entry slot) (.entry slot)

theorem store_keeps (proper : Proper r n (own ++ outer)) {place place' : Place}
    (same : SamePlace r (own ++ outer) place place') : Keeps r own outer (store place) (store place') := by
  cases same with
  | «variable» other => exact writeVar_keeps proper other
  | entry slot =>
    exact (getSlot_keeps slot).seq ((getSlot_keeps (slot + 1)).seq ((emit_keeps .getStack 3 0).seq
      ((emit_keeps .putTable 0 0).seq (pop_keeps 1))))

theorem stores_keeps (proper : Proper r n (own ++ outer)) {places places' : List Place}
    (same : List.Forall₂ (SamePlace r (own ++ outer)) places places') :
    Keeps r own outer (places.forM store) (places'.forM store) := by
  induction same with
  | nil => exact nothing_keeps
  | cons first _ ih => exact (store_keeps proper first).seq ih

/-- Two lists of targets whose places differ in names only. -/
def Targets (r : Renaming) (own outer : Lexical.Scope) (c c' : Compiler (List Place)) : Prop :=
  Paired (Twin r own outer) c c' fun places places' t t' =>
    List.Forall₂ (SamePlace r (own ++ outer)) places places' ∧ Twin r own outer t t'

theorem entry_targets {target target' : Expr} {rest rest' : List Expr}
    (entry : ∀ name at', target ≠ .name name at') (entry' : ∀ name at', target' ≠ .name name at')
    (place : Keeps r own outer (compilePlace target) (compilePlace target'))
    (others : Targets r own outer (compileTargets rest) (compileTargets rest')) :
    Targets r own outer (compileTargets (target :: rest)) (compileTargets (target' :: rest')) := by
  rw [compileTargets_entry entry, compileTargets_entry entry']
  refine place.seq (Paired.get fun s s' h => ?_)
  rw [h.depth]
  refine others.value fun places places' same => ?_
  exact Paired.pure fun _ _ h => ⟨.cons (.entry _) same, h⟩

theorem assign_keeps (proper : Proper r n (own ++ outer)) {targets targets' : Compiler (List Place)}
    {values values' : Compiler Unit} (htargets : Targets r own outer targets targets')
    (hvalues : Keeps r own outer values values') :
    Keeps r own outer
      (do
        let start := (← get).depth
        let places ← targets
        let temporaries := (← get).depth - start
        values
        places.reverse.forM store
        pop temporaries)
      (do
        let start := (← get).depth
        let places ← targets'
        let temporaries := (← get).depth - start
        values'
        places.reverse.forM store
        pop temporaries) := by
  refine Paired.get fun s s' h => ?_
  rw [h.depth]
  refine htargets.value fun places places' same => Paired.get fun t t' h => ?_
  rw [h.depth]
  exact hvalues.seq ((stores_keeps proper (List.rel_reverse same)).seq (pop_keeps _))

/-! ## Function bodies -/

theorem Twin.child {s s' : State} (h : Twin r own outer s s') (name name' : String)
    (id line paramCount : Nat) (isVararg : Bool) :
    Twin r [] (own ++ outer) (s.child name id line paramCount isVararg)
      (s'.child name' id line paramCount isVararg) where
  nameless := by
    have source : s'.source = s.source := (congrArg State.source h.nameless :)
    have nextId : s'.nextId = s.nextId := (congrArg State.nextId h.nameless :)
    simp only [State.child, State.nameless, source, nextId, h.closed]
  locals := .nil
  enclosing := by
    have locals := h.locals.map fun p => p.2
    rw [List.map_map, List.map_map] at locals
    exact locals.append h.enclosing

theorem finish_agree {s s' : State} (h : Twin r own outer s s') :
    Agree (fun u u' => u'.nameless = u.nameless) (s.builder.finish s.id s.name s.source)
      (s'.builder.finish s'.id s'.name s'.source) := by
  have id : s'.id = s.id := (congrArg State.id h.nameless :)
  have source : s'.source = s.source := (congrArg State.source h.nameless :)
  rw [agree_iff, ← Builder.finish_nameless, ← Builder.finish_nameless, h.builder, id, source]

theorem function_keeps (params : List String) (isVararg : Bool) {body body' : Block} (line : Nat)
    (name name' : String)
    (statements : Paired (Twin r (Lexical.numbered n params) (own ++ outer)) (compileStatements none body)
      (compileStatements none body') fun _ _ => Twin r inner (own ++ outer)) :
    Keeps r own outer (compileFunction ⟨params, isVararg, body, line⟩ name)
      (compileFunction ⟨r.binders n params, isVararg, body', line⟩ name') := by
  have code : Paired (Twin r [] (own ++ outer))
      (do
        if !params.isEmpty then
          emit .popVarArgs params.length 0
          bindLocals params
        compileStatements none body
        emit .ret 0 0)
      (do
        if !(r.binders n params).isEmpty then
          emit .popVarArgs params.length 0
          bindLocals (r.binders n params)
        compileStatements none body'
        emit .ret 0 0) fun _ _ => Twin r inner (own ++ outer) := by
    have rest := statements.seq (emit_keeps .ret 0 0)
    have empty : (r.binders n params).isEmpty = params.isEmpty := by cases params <;> rfl
    rw [empty]
    refine Paired.ite (fun some' => ?_) fun none' => ?_
    · have bound : Paired (Twin r [] (own ++ outer)) (bindLocals params) (bindLocals (r.binders n params))
          fun _ _ => Twin r (Lexical.numbered n params ++ []) (own ++ outer) := bindLocals_paired params
      rw [List.append_nil] at bound
      exact (emit_keeps .popVarArgs params.length 0).seq (bound.seq rest)
    · have none' : params = [] := by simpa using none'
      subst none'
      exact rest
  refine Paired.get fun s s' h => ?_
  have nextId : s'.nextId = s.nextId := (congrArg State.nextId h.nameless :)
  rw [Renaming.binders_length, nextId]
  refine Paired.ite (fun _ => Paired.fail rfl) fun _ => Paired.ite (fun _ => Paired.fail rfl) fun _ => ?_
  have start := (h.update fun s => { s with nextId := s.nextId + 1 }).child name name' s.nextId line
    params.length isVararg
  rw [nextId] at start
  refine (Paired.lift (code _ _ start)).value fun x x' child => ?_
  refine (Paired.lift (finish_agree child)).value fun u u' unit => ?_
  have added : Twin r own outer { s with nextId := x.2.nextId, builder := s.builder.addChild u }
      { s' with nextId := x'.2.nextId, builder := s'.builder.addChild u' } := by
    have next : x'.2.nextId = x.2.nextId := (congrArg State.nextId child.nameless :)
    have same : (s'.builder.addChild u').nameless = (s.builder.addChild u).nameless := by
      rw [Builder.addChild_nameless, Builder.addChild_nameless, h.builder, unit]
    rw [next]
    exact (h.update fun s => { s with nextId := x.2.nextId }).withBuilder same
  exact (Paired.set added).seq (emit_keeps .closure s.nextId 0)

/-! ## Statements from their parts -/

/-- Where control leads out of the loop, if there is one, does not depend on names. -/
def SameExit (exit exit' : Option LoopExit) : Prop := exit'.map LoopExit.place = exit.map LoopExit.place

/-- Two bodies of a loop or a block, for every loop around them. -/
def Bodies (r : Renaming) (own inner outer : Lexical.Scope) (body body' : Option LoopExit → Compiler Unit) :
    Prop :=
  ∀ exit exit', SameExit exit exit' →
    Paired (Twin r own outer) (body exit) (body' exit') fun _ _ => Twin r inner outer

theorem SameScope.exit {a b : Scope} (same : SameScope r own a b) (label : Nat) :
    SameExit (some ⟨label, a⟩) (some ⟨label, b⟩) := by
  simp [SameExit, LoopExit.place, same.depth, same.closed]

/-- The code of a loop with its test at the top. -/
def whileCode (cond : Compiler Unit) (body : Option LoopExit → Compiler Unit) : Compiler Unit := do
  let start ← newLabel
  let done ← newLabel
  placeLabel start
  cond
  emit .not 0 0
  emitJump .jmpTrue false done
  inScope (body (some ⟨done, ← scope⟩))
  emitJump .jmp false start
  placeLabel done

theorem whileCode_keeps {cond cond' : Compiler Unit} {body body' : Option LoopExit → Compiler Unit}
    (test : Keeps r own outer cond cond') (bodies : Bodies r own inner outer body body') :
    Keeps r own outer (whileCode cond body) (whileCode cond' body') := by
  refine newLabel_paired.value fun start start' same => newLabel_paired.value fun done done' same' => ?_
  subst same same'
  refine (placeLabel_keeps _).seq (test.seq ((emit_keeps .not 0 0).seq ((emitJump_keeps _ _ _).seq ?_)))
  refine scope_paired.value fun a b same => (inScope_keeps (bodies _ _ (same.exit _))).seq ?_
  exact (emitJump_keeps _ _ _).seq (placeLabel_keeps _)

/-- The code of a loop with its test at the bottom, in the scope of the body. -/
def repeatCode (cond : Compiler Unit) (body : Option LoopExit → Compiler Unit) : Compiler Unit := do
  let start ← newLabel
  let exit ← newLabel
  let done ← newLabel
  placeLabel start
  let around ← scope
  body (some ⟨exit, around⟩)
  cond
  emitJump .jmpTrue false done
  jumpOut around start
  placeLabel done
  closeScope around
  placeLabel exit

theorem repeatCode_keeps {cond cond' : Compiler Unit} {body body' : Option LoopExit → Compiler Unit}
    (test : Keeps r inner outer cond cond') (bodies : Bodies r own inner outer body body') :
    Keeps r own outer (repeatCode cond body) (repeatCode cond' body') := by
  refine newLabel_paired.value fun start start' same => newLabel_paired.value fun exit exit' same' => ?_
  refine newLabel_paired.value fun done done' same'' => ?_
  subst same same' same''
  refine (placeLabel_keeps _).seq (scope_paired.value fun a b same => ?_)
  refine (bodies _ _ (same.exit _)).seq (test.seq ((emitJump_keeps _ _ _).seq ?_))
  refine (jumpOut_keeps same.depth same.closed _).seq ((placeLabel_keeps _).seq ?_)
  exact (closeScope_paired same).seq (placeLabel_keeps _)

/-- The code of a numeric loop from the codes of its bounds and its body. -/
def numericForCode (var : String) (start limit step : Compiler Unit)
    (body : Option LoopExit → Compiler Unit) : Compiler Unit := do
  let around ← scope
  start
  limit
  step
  emit .forPrep 0 0
  let control ← scope
  let (v, limitSlot, stepSlot) := (control.depth - 3, control.depth - 2, control.depth - 1)
  let top ← newLabel
  let exit ← newLabel
  placeLabel top
  loopGuard v limitSlot stepSlot
  emit .not 0 0
  emitJump .jmpTrue false exit
  getSlot v
  bindLocals [var]
  body (some ⟨exit, control⟩)
  closeScope control
  getSlot v
  getSlot stepSlot
  emit .add 0 0
  putSlot v
  emitJump .jmp false top
  placeLabel exit
  closeScope around

theorem numericForCode_keeps {start start' limit limit' step step' : Compiler Unit} (var : String)
    {body body' : Option LoopExit → Compiler Unit} (hstart : Keeps r own outer start start')
    (hlimit : Keeps r own outer limit limit') (hstep : Keeps r own outer step step')
    (bodies : Bodies r ((var, n) :: own) inner outer body body') :
    Keeps r own outer (numericForCode var start limit step body)
      (numericForCode (r.binder (var, n)) start' limit' step' body') := by
  refine scope_paired.value fun around around' same => ?_
  refine hstart.seq (hlimit.seq (hstep.seq ((emit_keeps .forPrep 0 0).seq ?_)))
  refine scope_paired.value fun control control' same' => ?_
  refine newLabel_paired.value fun top top' label => newLabel_paired.value fun exit exit' label' => ?_
  subst label label'
  simp only [same'.depth]
  refine (placeLabel_keeps _).seq ((loopGuard_keeps _ _ _).seq ((emit_keeps .not 0 0).seq
    ((emitJump_keeps _ _ _).seq ((getSlot_keeps _).seq ?_))))
  refine (bindLocals_paired [var]).seq ((bodies _ _ (same'.exit _)).seq ?_)
  refine (closeScope_paired same').seq ((getSlot_keeps _).seq ((getSlot_keeps _).seq ?_))
  refine (emit_keeps .add 0 0).seq ((putSlot_keeps _).seq ((emitJump_keeps _ _ _).seq ?_))
  exact (placeLabel_keeps _).seq (closeScope_paired same)

/-- The code of a generic loop from the codes of its values and its body. -/
def genericForCode (names : List String) (values : Compiler Unit)
    (body : Option LoopExit → Compiler Unit) : Compiler Unit := do
  let around ← scope
  values
  let control ← scope
  let (iterator, state, last) := (control.depth - 3, control.depth - 2, control.depth - 1)
  let top ← newLabel
  let run ← newLabel
  let exit ← newLabel
  placeLabel top
  getSlot iterator
  getSlot state
  getSlot last
  emit .call 2 names.length
  bindLocals names
  let first := (← get).depth - names.length
  getSlot first
  putSlot last
  getSlot first
  loadConstant .nil
  emit .eq 0 0
  emit .not 0 0
  emitJump .jmpTrue false run
  jumpOut control exit
  placeLabel run
  body (some ⟨exit, control⟩)
  closeScope control
  emitJump .jmp false top
  placeLabel exit
  closeScope around

theorem genericForCode_keeps {values values' : Compiler Unit} (names : List String)
    {body body' : Option LoopExit → Compiler Unit} (hvalues : Keeps r own outer values values')
    (bodies : Bodies r (Lexical.numbered n names ++ own) inner outer body body') :
    Keeps r own outer (genericForCode names values body)
      (genericForCode (r.binders n names) values' body') := by
  refine scope_paired.value fun around around' same => hvalues.seq ?_
  refine scope_paired.value fun control control' same' => ?_
  refine newLabel_paired.value fun top top' label => newLabel_paired.value fun run run' label' => ?_
  refine newLabel_paired.value fun exit exit' label'' => ?_
  subst label label' label''
  simp only [same'.depth, Renaming.binders_length]
  refine (placeLabel_keeps _).seq ((getSlot_keeps _).seq ((getSlot_keeps _).seq ((getSlot_keeps _).seq
    ((emit_keeps .call 2 _).seq ((bindLocals_paired names).seq (Paired.get fun s s' h => ?_))))))
  rw [h.depth]
  refine (getSlot_keeps _).seq ((putSlot_keeps _).seq ((getSlot_keeps _).seq
    ((loadConstant_keeps .nil).seq ((emit_keeps .eq 0 0).seq ((emit_keeps .not 0 0).seq ?_)))))
  refine (emitJump_keeps _ _ _).seq ((jumpOut_keeps same'.depth same'.closed _).seq
    ((placeLabel_keeps _).seq ((bodies _ _ (same'.exit _)).seq ?_)))
  refine (closeScope_paired same').seq ((emitJump_keeps _ _ _).seq ((placeLabel_keeps _).seq ?_))
  exact closeScope_paired same

/-- The code of a return from the code of its values. -/
def returnCode (line count : Nat) (values : Compiler Unit) : Compiler Unit :=
  leaving do
    setLine line
    values
    setLine line
    let s ← get
    if s.upvalueCount < s.closed then emit .popClosed (s.closed - s.upvalueCount) 0
    emit .ret count 0

theorem returnCode_keeps {values values' : Compiler Unit} (hvalues : Keeps r own outer values values')
    (line count : Nat) :
    Keeps r own outer (returnCode line count values) (returnCode line count values') := by
  refine leaving_keeps ((setLine_keeps line).seq (hvalues.seq ((setLine_keeps line).seq ?_)))
  refine Paired.get fun s s' h => ?_
  rw [h.upvalueCount, h.closed]
  exact Paired.ite (fun _ => (emit_keeps .popClosed _ 0).seq (emit_keeps .ret count 0))
    fun _ => emit_keeps .ret count 0

theorem break_keeps {exit exit' : Option LoopExit} (same : SameExit exit exit') (line : Nat) :
    Keeps r own outer (compileStmt exit (.break line)) (compileStmt exit' (.break line)) := by
  match exit, exit' with
  | none, none =>
    rw [compileStmt]
    exact (setLine_keeps _).seq (Paired.throw rfl)
  | some e, some e' =>
    rw [compileStmt, compileStmt]
    refine (setLine_keeps _).seq ?_
    obtain ⟨label, depth, closed⟩ : e'.label = e.label ∧ e'.scope.depth = e.scope.depth ∧
        e'.scope.closed = e.scope.closed := by simpa [SameExit, LoopExit.place] using same
    simp only [label]
    exact jumpOut_keeps depth closed e.label
  | some _, none => simp [SameExit] at same
  | none, some _ => simp [SameExit] at same

/-! ## The induction -/

theorem Keeps.line {c c' : Compiler Unit} (h : Keeps r own outer c c') (line : Nat) :
    Keeps r own outer (do setLine line; c) (do setLine line; c') := (setLine_keeps line).seq h

theorem Keeps.adjusted {c c' : Compiler Unit} (h : Keeps r own outer c c') (line : Nat) (arity : Arity) :
    Keeps r own outer (do setLine line; c; adjustSingle arity) (do setLine line; c'; adjustSingle arity) :=
  Keeps.line (h.seq (adjustSingle_keeps arity)) line

/-- A statement that declares nothing. -/
theorem Keeps.silent {c c' : Compiler Unit} {stmt : Stmt} (h : Keeps r own outer c c') (line : Nat)
    (nothing : Lexical.declared n stmt = [] := by rfl) :
    Paired (Twin r own outer) (do setLine line; c) (do setLine line; c')
      fun _ _ => Twin r (Lexical.declared n stmt ++ own) outer := by
  rw [nothing]
  exact h.line line

open Lexical.Renaming.IsFreshIn (append_iff cons_iff binders_iff)

mutual
theorem compileExpr_keeps : ∀ (e : Expr) (arity : Arity) (own outer : Lexical.Scope) (n : Nat),
    Proper r n (own ++ outer) → r.IsFreshIn e.mentions →
      Keeps r own outer (compileExpr e arity) (compileExpr (e.renamed r (own ++ outer) n) arity)
  | .nil line, arity, own, outer, n, proper, fresh => by
    rw [Expr.renamed, compileExpr]
    exact (loadConstant_keeps _).adjusted line arity
  | .boolean b line, arity, own, outer, n, proper, fresh => by
    rw [Expr.renamed, compileExpr]
    exact (loadConstant_keeps _).adjusted line arity
  | .number x line, arity, own, outer, n, proper, fresh => by
    rw [Expr.renamed, compileExpr]
    exact (loadConstant_keeps _).adjusted line arity
  | .string s line, arity, own, outer, n, proper, fresh => by
    rw [Expr.renamed, compileExpr]
    exact (loadConstant_keeps _).adjusted line arity
  | .varargs line, arity, own, outer, n, proper, fresh => by
    rw [Expr.renamed, compileExpr]
    refine Keeps.line (Paired.get fun s s' h => ?_) line
    rw [show s'.builder.isVararg = s.builder.isVararg from (congrArg Builder.isVararg h.builder :)]
    exact Paired.ite (fun _ => (getSlot_keeps 0).seq (adjustMulti_keeps arity)) fun _ => Paired.throw rfl
  | .name name line, arity, own, outer, n, proper, fresh => by
    rw [Expr.renamed, compileExpr, compileExpr]
    rw [Expr.mentions, cons_iff] at fresh
    exact (readVar_keeps proper fresh.1).adjusted line arity
  | .paren inner line, arity, own, outer, n, proper, fresh => by
    rw [Expr.renamed, compileExpr, compileExpr]
    exact (compileExpr_keeps inner (.fixed 1) own outer n proper fresh).adjusted line arity
  | .unary op operand line, arity, own, outer, n, proper, fresh => by
    rw [Expr.renamed, compileExpr, compileExpr]
    exact Keeps.line ((compileExpr_keeps operand (.fixed 1) own outer n proper fresh).seq
      ((emit_keeps _ 0 0).seq (adjustSingle_keeps arity))) line
  | .binary op lhs rhs line, arity, own, outer, n, proper, fresh => by
    rw [Expr.renamed, compileExpr, compileExpr]
    rw [Expr.mentions, append_iff] at fresh
    exact (binary_keeps op (compileExpr_keeps lhs (.fixed 1) own outer n proper fresh.1)
      (compileExpr_keeps rhs (.fixed 1) own outer _ (proper.add _) fresh.2)).adjusted line arity
  | .index table key line, arity, own, outer, n, proper, fresh => by
    rw [Expr.renamed, compileExpr, compileExpr]
    rw [Expr.mentions, append_iff] at fresh
    exact Keeps.line ((compileExpr_keeps table (.fixed 1) own outer n proper fresh.1).seq
      ((compileExpr_keeps key (.fixed 1) own outer _ (proper.add _) fresh.2).seq
        ((emit_keeps .getTable 0 0).seq (adjustSingle_keeps arity)))) line
  | .field table name line, arity, own, outer, n, proper, fresh => by
    rw [Expr.renamed, compileExpr, compileExpr]
    exact Keeps.line ((compileExpr_keeps table (.fixed 1) own outer n proper fresh).seq
      ((loadConstant_keeps _).seq ((emit_keeps .getTable 0 0).seq (adjustSingle_keeps arity)))) line
  | .call callee args line, arity, own, outer, n, proper, fresh => by
    rw [Expr.renamed, compileExpr, compileExpr, exprsRenamed_length]
    rw [Expr.mentions, append_iff] at fresh
    exact Keeps.line ((compileExpr_keeps callee (.fixed 1) own outer n proper fresh.1).seq
      ((compileMultiList_keeps args own outer _ (proper.add _) fresh.2).seq
        ((setLine_keeps line).seq (finishCall_keeps _ arity)))) line
  | .methodCall object method args line, arity, own, outer, n, proper, fresh => by
    rw [Expr.renamed, compileExpr, compileExpr, exprsRenamed_length]
    rw [Expr.mentions, append_iff] at fresh
    have move : ∀ op a, Keeps r own outer (emit op a 0) (emit op a 0) := fun op a => emit_keeps op a 0
    exact Keeps.line ((compileExpr_keeps object (.fixed 1) own outer n proper fresh.1).seq
      ((move _ _).seq ((loadConstant_keeps _).seq ((move _ _).seq ((move _ _).seq ((move _ _).seq
        ((move _ _).seq ((move _ _).seq ((compileMultiList_keeps args own outer _ (proper.add _)
          fresh.2).seq ((setLine_keeps line).seq (finishCall_keeps _ arity))))))))))) line
  | .function body, arity, own, outer, n, proper, fresh => by
    have line : (body.renamed r (own ++ outer) n).line = body.line :=
      Expr.renamed_line (.function body)
    rw [Expr.renamed, compileExpr, compileExpr, Expr.line, Expr.line, line]
    exact (compileFunction_keeps body _ _ own outer n proper fresh).adjusted body.line arity
  | .table fields line, arity, own, outer, n, proper, fresh => by
    rw [Expr.renamed, compileExpr, compileExpr]
    exact Keeps.line ((emit_keeps .newTable 0 0).seq
      ((compileFields_keeps 1 fields own outer n proper fresh).seq (adjustSingle_keeps arity))) line

theorem compileValues_keeps : ∀ (count : Nat) (es : List Expr) (own outer : Lexical.Scope) (n : Nat),
    Proper r n (own ++ outer) → r.IsFreshIn (exprsMentions es) →
      Keeps r own outer (compileValues count es) (compileValues count (exprsRenamed r (own ++ outer) n es))
  | count, [], own, outer, n, proper, fresh => by
    rw [exprsRenamed, compileValues]
    exact loadNil_keeps count
  | count, [e], own, outer, n, proper, fresh => by
    rw [exprsRenamed, exprsRenamed, compileValues, compileValues]
    rw [exprsMentions, append_iff] at fresh
    exact compileExpr_keeps e (.fixed count) own outer n proper fresh.1
  | count, e :: f :: rest, own, outer, n, proper, fresh => by
    rw [exprsMentions, append_iff] at fresh
    have others := compileValues_keeps (count - 1) (f :: rest) own outer _
      (proper.add (Lexical.bindings e.mentions)) fresh.2
    rw [exprsRenamed] at others ⊢
    rw [exprsRenamed, compileValues, compileValues]
    exact (compileExpr_keeps e _ own outer n proper fresh.1).seq others

theorem compileMultiList_keeps : ∀ (es : List Expr) (own outer : Lexical.Scope) (n : Nat),
    Proper r n (own ++ outer) → r.IsFreshIn (exprsMentions es) →
      Keeps r own outer (compileMultiList es) (compileMultiList (exprsRenamed r (own ++ outer) n es))
  | [], own, outer, n, proper, fresh => by
    rw [exprsRenamed, compileMultiList]
    exact nothing_keeps
  | [e], own, outer, n, proper, fresh => by
    rw [exprsRenamed, exprsRenamed, compileMultiList, compileMultiList]
    rw [exprsMentions, append_iff] at fresh
    exact compileExpr_keeps e .multi own outer n proper fresh.1
  | e :: f :: rest, own, outer, n, proper, fresh => by
    rw [exprsMentions, append_iff] at fresh
    have others := compileMultiList_keeps (f :: rest) own outer _
      (proper.add (Lexical.bindings e.mentions)) fresh.2
    rw [exprsRenamed] at others ⊢
    rw [exprsRenamed, compileMultiList, compileMultiList]
    exact (compileExpr_keeps e _ own outer n proper fresh.1).seq others

theorem compileFields_keeps : ∀ (position : Nat) (fields : List TableField) (own outer : Lexical.Scope)
    (n : Nat), Proper r n (own ++ outer) → r.IsFreshIn (fieldsMentions fields) →
      Keeps r own outer (compileFields position fields)
        (compileFields position (fieldsRenamed r (own ++ outer) n fields))
  | position, [], own, outer, n, proper, fresh => by
    rw [fieldsRenamed, compileFields]
    exact nothing_keeps
  | position, .positional value :: rest, own, outer, n, proper, fresh => by
    rw [fieldsMentions, append_iff] at fresh
    rw [fieldsRenamed, compileFields, compileFields, fieldsRenamed_isEmpty, Expr.renamed_isMulti]
    exact (emit_keeps _ 1 0).seq ((loadConstant_keeps _).seq
      ((compileExpr_keeps value _ own outer n proper fresh.1).seq ((emit_keeps .putTable 0 0).seq
        (compileFields_keeps (position + 1) rest own outer _ (proper.add _) fresh.2))))
  | position, .named name value :: rest, own, outer, n, proper, fresh => by
    rw [fieldsMentions, append_iff] at fresh
    rw [fieldsRenamed, compileFields, compileFields]
    exact (emit_keeps _ 1 0).seq ((loadConstant_keeps _).seq
      ((compileExpr_keeps value _ own outer n proper fresh.1).seq ((emit_keeps .putTable 0 0).seq
        (compileFields_keeps position rest own outer _ (proper.add _) fresh.2))))
  | position, .keyed key value :: rest, own, outer, n, proper, fresh => by
    rw [fieldsMentions, append_iff, append_iff] at fresh
    obtain ⟨⟨fresh₁, fresh₂⟩, fresh₃⟩ := fresh
    rw [fieldsRenamed, compileFields, compileFields]
    exact (emit_keeps _ 1 0).seq ((compileExpr_keeps key _ own outer n proper fresh₁).seq
      ((compileExpr_keeps value _ own outer _ (proper.add _) fresh₂).seq ((emit_keeps .putTable 0 0).seq
        (compileFields_keeps position rest own outer _ ((proper.add _).add _) fresh₃))))

theorem compileFunction_keeps : ∀ (f : FunctionBody) (name name' : String) (own outer : Lexical.Scope)
    (n : Nat), Proper r n (own ++ outer) → r.IsFreshIn f.mentions →
      Keeps r own outer (compileFunction f name) (compileFunction (f.renamed r (own ++ outer) n) name')
  | ⟨params, isVararg, body, line⟩, name, name', own, outer, n, proper, fresh => by
    rw [FunctionBody.mentions, append_iff, binders_iff] at fresh
    rw [FunctionBody.renamed]
    exact function_keeps params isVararg line name name' (compileStatements_paired body none none rfl
      (Lexical.numbered n params) (own ++ outer) _ (proper.numbered fresh.1) fresh.2)

theorem compilePlace_keeps : ∀ (e : Expr) (own outer : Lexical.Scope) (n : Nat),
    Proper r n (own ++ outer) → r.IsFreshIn e.mentions →
      Keeps r own outer (compilePlace e) (compilePlace (e.renamed r (own ++ outer) n))
  | .index table key line, own, outer, n, proper, fresh => by
    rw [Expr.mentions, append_iff] at fresh
    rw [Expr.renamed, compilePlace, compilePlace]
    exact (compileExpr_keeps table _ own outer n proper fresh.1).seq
      (compileExpr_keeps key _ own outer _ (proper.add _) fresh.2)
  | .field table name line, own, outer, n, proper, fresh => by
    rw [Expr.renamed, compilePlace, compilePlace]
    exact (compileExpr_keeps table _ own outer n proper fresh).seq (loadConstant_keeps _)
  | .nil _, _, _, _, _, _ => Paired.throw rfl
  | .boolean _ _, _, _, _, _, _ => Paired.throw rfl
  | .number _ _, _, _, _, _, _ => Paired.throw rfl
  | .string _ _, _, _, _, _, _ => Paired.throw rfl
  | .varargs _, _, _, _, _, _ => Paired.throw rfl
  | .name _ _, _, _, _, _, _ => Paired.throw rfl
  | .paren _ _, _, _, _, _, _ => Paired.throw rfl
  | .unary _ _ _, _, _, _, _, _ => Paired.throw rfl
  | .binary _ _ _ _, _, _, _, _, _ => Paired.throw rfl
  | .call _ _ _, _, _, _, _, _ => Paired.throw rfl
  | .methodCall _ _ _ _, _, _, _, _, _ => Paired.throw rfl
  | .function _, _, _, _, _, _ => Paired.throw rfl
  | .table _ _, _, _, _, _, _ => Paired.throw rfl

theorem compileTargets_targets : ∀ (es : List Expr) (own outer : Lexical.Scope) (n : Nat),
    Proper r n (own ++ outer) → r.IsFreshIn (exprsMentions es) →
      Targets r own outer (compileTargets es) (compileTargets (exprsRenamed r (own ++ outer) n es))
  | [], own, outer, n, proper, fresh => by
    rw [exprsRenamed, compileTargets]
    exact Paired.pure fun _ _ h => ⟨.nil, h⟩
  | target :: rest, own, outer, n, proper, fresh => by
    rw [exprsMentions, append_iff] at fresh
    have place := compilePlace_keeps target own outer n proper fresh.1
    have others := compileTargets_targets rest own outer _
      (proper.add (Lexical.bindings target.mentions)) fresh.2
    rw [exprsRenamed]
    cases target with
    | name name line =>
      rw [Expr.mentions, cons_iff] at fresh
      rw [Expr.renamed, compileTargets, compileTargets]
      refine others.value fun places places' same => ?_
      exact Paired.pure fun _ _ h => ⟨.cons (.variable fresh.1.1) same, h⟩
    | _ => exact entry_targets (by rintro _ _ ⟨⟩) (by rintro _ _ ⟨⟩) place others

theorem compileStmt_paired : ∀ (stmt : Stmt) (exit exit' : Option LoopExit), SameExit exit exit' →
    ∀ (own outer : Lexical.Scope) (n : Nat), Proper r n (own ++ outer) → r.IsFreshIn stmt.mentions →
      Paired (Twin r own outer) (compileStmt exit stmt)
        (compileStmt exit' (stmt.renamed r (own ++ outer) n))
        fun _ _ => Twin r (Lexical.declared n stmt ++ own) outer
  | .local names values line, exit, exit', same, own, outer, n, proper, fresh => by
    rw [Stmt.mentions, append_iff] at fresh
    rw [Stmt.renamed, compileStmt, compileStmt, Renaming.binders_length]
    exact (setLine_keeps line).seq ((compileValues_keeps _ values own outer _ (proper.add _) fresh.2).seq
      (bindLocals_paired names))
  | .localFunction name body line, exit, exit', same, own, outer, n, proper, fresh => by
    rw [Stmt.mentions, cons_iff] at fresh
    rw [Stmt.renamed, compileStmt, compileStmt]
    have seen : Proper r (n + 1) ((name, n) :: own ++ outer) := proper.cons fresh.1
    have own' : r.use ((name, n) :: own ++ outer) name = r.binder (name, n) := r.use_of_eq rfl
    have write : Keeps r ((name, n) :: own) outer (writeVar name) (writeVar (r.binder (name, n))) :=
      own' ▸ writeVar_keeps seen fresh.1
    exact (setLine_keeps line).seq ((loadNil_keeps 1).seq ((bindLocals_paired [name]).seq
      ((compileFunction_keeps body _ _ ((name, n) :: own) outer _ seen fresh.2).seq write)))
  | .assign [] values line, exit, exit', same, own, outer, n, proper, fresh => by
    rw [Stmt.mentions, append_iff] at fresh
    rw [Stmt.renamed, compileStmt_assign (by simp), compileStmt_assign (by simp [exprsRenamed_length]),
      exprsRenamed_length]
    exact (assign_keeps proper (compileTargets_targets [] own outer n proper fresh.1)
      (compileValues_keeps _ values own outer _ (proper.add _) fresh.2)).silent line
  | .assign (first :: second :: rest) values line, exit, exit', same, own, outer, n, proper, fresh => by
    rw [Stmt.mentions, append_iff] at fresh
    rw [Stmt.renamed, compileStmt_assign (by simp), compileStmt_assign (by simp [exprsRenamed_length]),
      exprsRenamed_length]
    exact (assign_keeps proper
      (compileTargets_targets (first :: second :: rest) own outer n proper fresh.1)
      (compileValues_keeps _ values own outer _ (proper.add _) fresh.2)).silent line
  | .assign [target] values line, exit, exit', same, own, outer, n, proper, fresh => by
    rw [Stmt.mentions, append_iff, exprsMentions, append_iff] at fresh
    obtain ⟨⟨fresh₁, -⟩, fresh₂⟩ := fresh
    have place := compilePlace_keeps target own outer n proper fresh₁
    have values' := compileValues_keeps 1 values own outer _
      (proper.add (Lexical.bindings (exprsMentions [target]))) fresh₂
    rw [Stmt.renamed, exprsRenamed, exprsRenamed]
    cases target with
    | name name at' =>
      rw [Expr.mentions, cons_iff] at fresh₁
      rw [Expr.renamed, compileStmt, compileStmt]
      exact Keeps.silent (values'.seq (writeVar_keeps proper fresh₁.1)) line
    | _ =>
      rw [compileStmt_place (by rintro _ _ ⟨⟩), compileStmt_place (by rintro _ _ ⟨⟩)]
      exact Keeps.silent (place.seq (values'.seq (emit_keeps .putTable 0 0))) line
  | .call call, exit, exit', same, own, outer, n, proper, fresh => by
    rw [Stmt.renamed, compileStmt, compileStmt, stmtLine, stmtLine, Expr.renamed_line]
    exact (compileExpr_keeps call _ own outer n proper fresh).silent call.line
  | .block body, exit, exit', same, own, outer, n, proper, fresh => by
    have line : (body.renamed r (own ++ outer) n).line = body.line := by
      cases body
      rfl
    rw [Stmt.renamed, compileStmt, compileStmt, stmtLine, stmtLine, line]
    exact (inScope_keeps (compileStatements_paired body exit exit' same own outer n proper fresh)).silent
      body.line
  | .while cond body line, exit, exit', same, own, outer, n, proper, fresh => by
    rw [Stmt.mentions, append_iff] at fresh
    rw [Stmt.renamed, compileStmt, compileStmt]
    exact (whileCode_keeps (compileExpr_keeps cond _ own outer n proper fresh.1) fun exit exit' same =>
      compileStatements_paired body exit exit' same own outer _ (proper.add _) fresh.2).silent line
  | .repeat body cond line, exit, exit', same, own, outer, n, proper, fresh => by
    rw [Stmt.mentions, append_iff] at fresh
    rw [Stmt.renamed, compileStmt, compileStmt]
    have seen : Proper r (n + Lexical.bindings body.mentions)
        (Lexical.allDeclared n body.stmts ++ own ++ outer) := by
      rw [List.append_assoc]
      exact proper.block fresh.1
    have test := compileExpr_keeps cond (.fixed 1) _ outer _ seen fresh.2
    rw [List.append_assoc] at test
    exact (repeatCode_keeps test fun exit exit' same =>
      compileStatements_paired body exit exit' same own outer n proper fresh.1).silent line
  | .if clauses none line, exit, exit', same, own, outer, n, proper, fresh => by
    rw [Stmt.mentions, append_iff] at fresh
    rw [Stmt.renamed, compileStmt, compileStmt]
    refine Keeps.silent (newLabel_paired.value fun done done' label => ?_) line
    subst label
    exact (compileClauses_keeps clauses exit exit' same _ _ own outer n proper fresh.1).seq
      (nothing_keeps.seq (placeLabel_keeps _))
  | .if clauses (some body) line, exit, exit', same, own, outer, n, proper, fresh => by
    rw [Stmt.mentions, append_iff] at fresh
    rw [Stmt.renamed, compileStmt, compileStmt]
    refine Keeps.silent (newLabel_paired.value fun done done' label => ?_) line
    subst label
    have alternative := inScope_keeps
      (compileStatements_paired body exit exit' same own outer _
        (proper.add (Lexical.bindings (clausesMentions clauses))) fresh.2)
    exact (compileClauses_keeps clauses exit exit' same _ _ own outer n proper fresh.1).seq
      (alternative.seq (placeLabel_keeps _))
  | .numericFor var start limit none body line, exit, exit', same, own, outer, n, proper, fresh => by
    rw [Stmt.mentions, cons_iff, append_iff, append_iff, append_iff] at fresh
    obtain ⟨other, ⟨⟨fresh₁, fresh₂⟩, -⟩, fresh₃⟩ := fresh
    have seen : Proper r (n + 1) ((var, n) :: own ++ outer) := proper.cons other
    rw [Stmt.renamed, compileStmt, compileStmt]
    have bodies : Bodies r ((var, n) :: own) _ outer (fun exit => compileStatements exit body) _ :=
      fun exit exit' same => compileStatements_paired body exit exit' same ((var, n) :: own) outer _
        (((seen.add (Lexical.bindings start.mentions)).add (Lexical.bindings limit.mentions)).add 0) fresh₃
    exact (numericForCode_keeps var
      (compileExpr_keeps start (.fixed 1) own outer _ (proper.add 1) fresh₁)
      (compileExpr_keeps limit (.fixed 1) own outer _ ((proper.add 1).add _) fresh₂)
      (loadConstant_keeps (.number 1.0)) bodies).silent line
  | .numericFor var start limit (some step) body line, exit, exit', same, own, outer, n, proper, fresh => by
    rw [Stmt.mentions, cons_iff, append_iff, append_iff, append_iff] at fresh
    obtain ⟨other, ⟨⟨fresh₁, fresh₂⟩, fresh₃⟩, fresh₄⟩ := fresh
    have seen : Proper r (n + 1) ((var, n) :: own ++ outer) := proper.cons other
    rw [Stmt.renamed, compileStmt, compileStmt]
    have bodies : Bodies r ((var, n) :: own) _ outer (fun exit => compileStatements exit body) _ :=
      fun exit exit' same => compileStatements_paired body exit exit' same ((var, n) :: own) outer _
        (((seen.add (Lexical.bindings start.mentions)).add (Lexical.bindings limit.mentions)).add
          (Lexical.bindings step.mentions)) fresh₄
    exact (numericForCode_keeps var
      (compileExpr_keeps start (.fixed 1) own outer _ (proper.add 1) fresh₁)
      (compileExpr_keeps limit (.fixed 1) own outer _ ((proper.add 1).add _) fresh₂)
      (compileExpr_keeps step (.fixed 1) own outer _ (((proper.add 1).add _).add _) fresh₃)
      bodies).silent line
  | .genericFor names values body line, exit, exit', same, own, outer, n, proper, fresh => by
    rw [Stmt.mentions, append_iff, append_iff, binders_iff] at fresh
    obtain ⟨⟨fresh₁, fresh₂⟩, fresh₃⟩ := fresh
    rw [Stmt.renamed, compileStmt, compileStmt, ← List.append_assoc]
    have seen : Proper r (n + names.length) (Lexical.numbered n names ++ own ++ outer) := by
      rw [List.append_assoc]
      exact proper.numbered fresh₁
    have bodies : Bodies r (Lexical.numbered n names ++ own) _ outer
        (fun exit => compileStatements exit body) _ := fun exit exit' same =>
      compileStatements_paired body exit exit' same _ outer _
        (seen.add (Lexical.bindings (exprsMentions values))) fresh₃
    exact (genericForCode_keeps names
      (compileValues_keeps 3 values own outer _ (proper.add names.length) fresh₂) bodies).silent line
  | .function name body line, exit, exit', same, own, outer, n, proper, fresh => by
    rw [Stmt.mentions, cons_iff] at fresh
    rw [Stmt.renamed, compileStmt, compileStmt]
    have path : storePath? { name with root := r.use (own ++ outer) name.root } = storePath? name := rfl
    have body' := fun text text' => compileFunction_keeps body text text' own outer n proper fresh.2
    rw [path]
    refine Keeps.silent ?_ line
    match storePath? name with
    | none => exact (body' _ _).seq (writeVar_keeps proper fresh.1)
    | some (fields, key) =>
      exact (readPath_keeps proper fresh.1 fields).seq ((loadConstant_keeps _).seq ((body' _ _).seq
        (emit_keeps .putTable 0 0)))
  | .break line, exit, exit', same, own, outer, n, proper, fresh => break_keeps same line

theorem compileClauses_keeps : ∀ (clauses : List Clause) (exit exit' : Option LoopExit),
    SameExit exit exit' → ∀ (done : Nat) (more : Bool) (own outer : Lexical.Scope) (n : Nat),
      Proper r n (own ++ outer) → r.IsFreshIn (clausesMentions clauses) →
        Keeps r own outer (compileClauses exit done more clauses)
          (compileClauses exit' done more (clausesRenamed r (own ++ outer) n clauses))
  | [], exit, exit', same, done, more, own, outer, n, proper, fresh => by
    rw [clausesRenamed, compileClauses, compileClauses]
    exact nothing_keeps
  | ⟨cond, body⟩ :: rest, exit, exit', same, done, more, own, outer, n, proper, fresh => by
    rw [clausesMentions, append_iff, append_iff] at fresh
    obtain ⟨⟨fresh₁, fresh₂⟩, fresh₃⟩ := fresh
    rw [clausesRenamed, compileClauses, compileClauses, clausesRenamed_isEmpty]
    refine newLabel_paired.value fun next next' label => ?_
    subst label
    have others := compileClauses_keeps rest exit exit' same done more own outer _
      ((proper.add (Lexical.bindings cond.mentions)).add (Lexical.bindings body.mentions)) fresh₃
    refine (compileExpr_keeps cond _ own outer n proper fresh₁).seq ((emit_keeps .not 0 0).seq
      ((emitJump_keeps _ _ _).seq ((inScope_keeps (compileStatements_paired body exit exit' same own outer _
        (proper.add _) fresh₂)).seq ?_)))
    exact Paired.ite (fun _ => (emitJump_keeps _ _ _).seq ((placeLabel_keeps _).seq others))
      fun _ => (placeLabel_keeps _).seq others

theorem compileStatements_paired : ∀ (body : Block) (exit exit' : Option LoopExit), SameExit exit exit' →
    ∀ (own outer : Lexical.Scope) (n : Nat), Proper r n (own ++ outer) → r.IsFreshIn body.mentions →
      Paired (Twin r own outer) (compileStatements exit body)
        (compileStatements exit' (body.renamed r (own ++ outer) n))
        fun _ _ => Twin r (Lexical.allDeclared n body.stmts ++ own) outer
  | ⟨stmts, none, line⟩, exit, exit', same, own, outer, n, proper, fresh => by
    rw [Block.mentions, append_iff] at fresh
    rw [Block.renamed, compileStatements, compileStatements]
    exact (compileStmts_paired stmts exit exit' same own outer n proper fresh.1).seq nothing_keeps
  | ⟨stmts, some ⟨values, retLine⟩, line⟩, exit, exit', same, own, outer, n, proper, fresh => by
    rw [Block.mentions, append_iff] at fresh
    rw [Block.renamed, compileStatements, compileStatements, exprsRenamed_length]
    have seen := proper.allDeclared stmts fresh.1
    rw [← List.append_assoc] at seen ⊢
    exact (compileStmts_paired stmts exit exit' same own outer n proper fresh.1).seq
      (returnCode_keeps (compileMultiList_keeps values _ outer _ seen fresh.2) retLine values.length)

theorem compileStmts_paired : ∀ (stmts : List Stmt) (exit exit' : Option LoopExit), SameExit exit exit' →
    ∀ (own outer : Lexical.Scope) (n : Nat), Proper r n (own ++ outer) →
      r.IsFreshIn (stmtsMentions stmts) →
        Paired (Twin r own outer) (compileStmts exit stmts)
          (compileStmts exit' (stmtsRenamed r (own ++ outer) n stmts))
          fun _ _ => Twin r (Lexical.allDeclared n stmts ++ own) outer
  | [], exit, exit', same, own, outer, n, proper, fresh => by
    rw [stmtsRenamed, compileStmts, compileStmts]
    exact nothing_keeps
  | stmt :: rest, exit, exit', same, own, outer, n, proper, fresh => by
    rw [stmtsMentions, append_iff] at fresh
    rw [stmtsRenamed, compileStmts, compileStmts, Lexical.allDeclared, List.append_assoc]
    have seen := proper.declared stmt fresh.1
    rw [← List.append_assoc] at seen ⊢
    exact (compileStmt_paired stmt exit exit' same own outer n proper fresh.1).seq
      (compileStmts_paired rest exit exit' same _ outer _ seen fresh.2)
end

/-! ## Chunks -/

theorem verify_agree {u u' : CodeUnit} (same : u'.nameless = u.nameless) :
    Agree (fun _ _ => True) ((Verifier.verify u).mapError CompileError.verification)
      ((Verifier.verify u').mapError CompileError.verification) := by
  have alike := Verifier.verify_nameless u'
  rw [same, Verifier.verify_nameless] at alike
  cases accepted : Verifier.verify u <;> cases accepted' : Verifier.verify u' <;>
    simp_all [Agree, Except.mapError, CompileError.nameless]

/-- A program in which one binding, and with it what refers to this binding, is given a name that no
variable of the program has, is compiled to units that differ from those of the program in their
display names only, or fails with the same error. -/
theorem compile_renamed (r : Renaming) (source : String) (body : Block) (fresh : r.IsFreshIn body.mentions) :
    nameless (compile source (body.renamed r [] 0)) = nameless (compile source body) := by
  have start : Twin r [] [] (.root source) (.root source) := ⟨rfl, .nil, .nil⟩
  have statements := compileStatements_paired body none none rfl [] [] 0 (.nil r 0) fresh
  have code := statements.seq (emit_keeps .ret 0 0)
  refine agree_iff.1 ((code _ _ start).bind fun x x' twin => ?_)
  refine (finish_agree twin).bind fun u u' same => ?_
  exact (verify_agree same).bind fun _ _ _ => same

/-- The inner one of two variables of one name, in a loop and in a function that captures it. -/
theorem compile_renamed_shadowing :
    let body : Block := ⟨[.local ["x"] [.nil 1] 1,
      .repeat ⟨[.local ["x"] [.name "x" 2] 2,
        .localFunction "f" ⟨["y"], false, ⟨[.call (.call (.name "f" 3) [.name "x" 3, .name "y" 3] 3)],
          none, 3⟩, 3⟩ 3], none, 2⟩ (.name "x" 4) 2,
      .call (.call (.name "g" 5) [.name "x" 5] 5)], none, 1⟩
    let renamed : Block := ⟨[.local ["x"] [.nil 1] 1,
      .repeat ⟨[.local ["z"] [.name "x" 2] 2,
        .localFunction "f" ⟨["y"], false, ⟨[.call (.call (.name "f" 3) [.name "z" 3, .name "y" 3] 3)],
          none, 3⟩, 3⟩ 3], none, 2⟩ (.name "z" 4) 2,
      .call (.call (.name "g" 5) [.name "x" 5] 5)], none, 1⟩
    Renaming.IsFreshIn ⟨1, "z"⟩ body.mentions ∧ body.renamed ⟨1, "z"⟩ [] 0 = renamed ∧
      nameless (compile "test" renamed) = nameless (compile "test" body) ∧
      ∃ u, compile "test" body = .ok u := by
  intro body renamed
  have fresh : Renaming.IsFreshIn ⟨1, "z"⟩ body.mentions := by
    unfold Renaming.IsFreshIn
    decide
  have same : body.renamed ⟨1, "z"⟩ [] 0 = renamed := rfl
  refine ⟨fresh, same, ?_, _, by cbv⟩
  rw [← same]
  exact compile_renamed ⟨1, "z"⟩ "test" body fresh

end Compiler

end ScriptEngine
