import ScriptEngine.Proofs.Compiler.Verified
import ScriptEngine.Proofs.Evaluation.Loop
import ScriptEngine.Proofs.Machine.Footing
import ScriptEngine.Proofs.Parser.Literals

/-!
# Compiled chunks do what programs mean

By induction on the tree, the code of every statement without calls does what the statement means. A
chunk starts with its argument list in the only slot and with no variable declared, and whatever its
evaluation comes to, results or a fault, its run comes to as well (`compile_preserves_meaning`).
-/

set_option linter.dupNamespace false

namespace ScriptEngine

/-- What a chunk finds when it starts. -/
def Machine.world (m : Machine) : World := ⟨m.globals, m.store.tables, #[]⟩

namespace Compiler

mutual
theorem compileStmt_runs : ∀ (stmt : Stmt) (exit : Option LoopExit) (n : Nat), stmt.isCallFree = true →
    stmt.Regular (Number.isNegative · = false) → Runs exit (compileStmt exit stmt) (stmt.eval n ·)
  | .local names values _, exit, n, free, regular => by
    cases regular with
    | «local» values' =>
      rw [compileStmt]
      exact (local_runs (compileValues_computes names.length values free values')).line
  | .assign targets values line, exit, n, free, regular => by
    obtain ⟨free, free'⟩ := Bool.and_eq_true_iff.1 free
    cases regular with
    | assign regular places values' =>
      have pushes (count : Nat) := compileValues_computes count values free' values'
      show Runs exit _ (assigning targets (evalAll · values))
      by_cases many : targets.length ≠ 1
      · rw [compileStmt_assign many]
        exact (assign_runs free regular (pushes _)).line
      obtain ⟨target, rfl⟩ := List.length_eq_one_iff.1 (not_not.1 many)
      by_cases isName : ∃ name line, target = .name name line
      · obtain ⟨name, line', rfl⟩ := isName
        rw [compileStmt]
        exact (assign_variable_runs (pushes 1)).line
      · have entry : ∀ name line, target ≠ .name name line := fun name line same =>
          isName ⟨name, line, same⟩
        rw [compileStmt_place entry]
        refine (assign_entry_runs ?_ (regular target List.mem_cons_self) entry (pushes 1)).line
        simpa using free
  | .block body, exit, n, free, regular => by
    cases regular with
    | block regular =>
      rw [compileStmt]
      exact (block_runs (compileStatements_runs body exit n free regular)).line
  | .while cond body _, exit, n, free, regular => by
    obtain ⟨free, free'⟩ := Bool.and_eq_true_iff.1 free
    cases regular with
    | «while» regular regular' =>
      rw [compileStmt]
      exact (while_runs (compileExpr_computes cond (.fixed 1) free regular)
        (fun exit => compileStatements_runs body exit n free' regular') n).line
  | .repeat body cond _, exit, n, free, regular => by
    obtain ⟨free, free'⟩ := Bool.and_eq_true_iff.1 free
    cases regular with
    | «repeat» regular' regular =>
      rw [compileStmt]
      exact (repeat_runs (compileExpr_computes cond (.fixed 1) free regular)
        (fun exit => compileStatements_runs body exit n free' regular') n).line
  | .if clauses none _, exit, n, free, regular => by
    obtain ⟨free, free'⟩ := Bool.and_eq_true_iff.1 free
    cases regular with
    | «if» conds bodies otherwise =>
      rw [compileStmt]
      exact (if_runs (fun l => compileClauses_choosing clauses exit l false n free conds bodies)
        (fun s => Adds.pure (a := ()) fun F => nothing_encloses) fun _ => rfl).line
  | .if clauses (some body) _, exit, n, free, regular => by
    obtain ⟨free, free'⟩ := Bool.and_eq_true_iff.1 free
    cases regular with
    | «if» conds bodies otherwise =>
      rw [compileStmt]
      exact (if_runs (fun l => compileClauses_choosing clauses exit l true n free conds bodies)
        (fun s => inScope_adds (compileStatements_runs body exit n free' (otherwise body rfl)))
        nofun).line
  | .numericFor var a b none body _, exit, n, free, regular => by
    obtain ⟨free, free₁⟩ := Bool.and_eq_true_iff.1 free
    obtain ⟨free, -⟩ := Bool.and_eq_true_iff.1 free
    obtain ⟨free, free₂⟩ := Bool.and_eq_true_iff.1 free
    cases regular with
    | numericFor start limit step inner =>
      rw [compileStmt]
      exact (numericFor_runs (compileExpr_computes a (.fixed 1) free start)
        (compileExpr_computes b (.fixed 1) free₂ limit)
        (loadConstant_computes (v := .number 1.0) Number.isNegative_one)
        (fun exit => compileStatements_runs body exit n free₁ inner) var n).line
  | .numericFor var a b (some c) body _, exit, n, free, regular => by
    obtain ⟨free, free₁⟩ := Bool.and_eq_true_iff.1 free
    obtain ⟨free, free₃⟩ := Bool.and_eq_true_iff.1 free
    obtain ⟨free, free₂⟩ := Bool.and_eq_true_iff.1 free
    cases regular with
    | numericFor start limit step inner =>
      rw [compileStmt]
      exact (numericFor_runs (compileExpr_computes a (.fixed 1) free start)
        (compileExpr_computes b (.fixed 1) free₂ limit)
        (compileExpr_computes c (.fixed 1) free₃ (step c rfl))
        (fun exit => compileStatements_runs body exit n free₁ inner) var n).line
  | .break _, some e, n, _, _ => by
    rw [compileStmt]
    exact (break_runs e).line
  | .break _, none, n, _, _ => by
    rw [compileStmt]
    exact fun s => Adds.line Adds.throw

theorem compileClauses_choosing : ∀ (clauses : List Clause) (exit : Option LoopExit) (l : Nat) (more : Bool)
    (n : Nat), clausesAreCallFree clauses = true →
      (∀ c ∈ clauses, c.cond.Regular (Number.isNegative · = false)) →
      (∀ c ∈ clauses, c.body.Regular (Number.isNegative · = false)) →
        Choosing exit (compileClauses exit l more clauses) l more
          fun env other => evalClauses n env clauses other
  | [], exit, l, more, n, _, _, _ => by
    rw [compileClauses]
    exact fun s => Adds.pure fun F => .nothing
  | ⟨cond, body⟩ :: rest, exit, l, more, n, free, conds, bodies => by
    obtain ⟨free, free''⟩ := Bool.and_eq_true_iff.1 free
    obtain ⟨free, free'⟩ := Bool.and_eq_true_iff.1 free
    obtain ⟨here, conds⟩ := List.forall_mem_cons.1 conds
    obtain ⟨here', bodies⟩ := List.forall_mem_cons.1 bodies
    rw [compileClauses]
    refine Choosing.clause (compileExpr_computes cond (.fixed 1) free here)
      (compileStatements_runs body exit n free' here')
      (compileClauses_choosing rest exit l more n free'' conds bodies) fun last => ?_
    obtain rfl := List.isEmpty_iff.1 last
    rfl

theorem compileStatements_runs : ∀ (body : Block) (exit : Option LoopExit) (n : Nat),
    body.isCallFree = true → body.Regular (Number.isNegative · = false) →
      Runs exit (compileStatements exit body) (body.eval n ·)
  | ⟨stmts, none, _⟩, exit, n, free, regular => by
    obtain ⟨free, -⟩ := Bool.and_eq_true_iff.1 free
    cases regular with
    | intro regular _ =>
      rw [compileStatements]
      exact (compileStmts_runs stmts exit n free regular).seq .nothing
  | ⟨stmts, some ⟨values, line⟩, _⟩, exit, n, free, regular => by
    obtain ⟨free, free'⟩ := Bool.and_eq_true_iff.1 free
    cases regular with
    | intro regular regular' =>
      rw [compileStatements]
      exact (compileStmts_runs stmts exit n free regular).seq
        (return_runs (compileMultiList_computes values free' (regular' _ rfl)) line)

theorem compileStmts_runs : ∀ (stmts : List Stmt) (exit : Option LoopExit) (n : Nat),
    stmtsAreCallFree stmts = true → (∀ s ∈ stmts, s.Regular (Number.isNegative · = false)) →
      Runs exit (compileStmts exit stmts) (evalStmts n · stmts)
  | [], exit, n, _, _ => by
    rw [compileStmts]
    exact .nothing
  | stmt :: rest, exit, n, free, regular => by
    obtain ⟨free, free'⟩ := Bool.and_eq_true_iff.1 free
    obtain ⟨here, others⟩ := List.forall_mem_cons.1 regular
    rw [compileStmts]
    exact (compileStmt_runs stmt exit n free here).seq (compileStmts_runs rest exit n free' others)
end

/-! ## Chunks -/

theorem root_ready (source : String) : (State.root source).Ready where
  pending jump mem := by simp [State.root] at mem
  places l address found := by simp [State.root] at found
  constants v mem := by simp [State.root] at mem
  enclosing := rfl

/-- How a run ends that ends as the evaluation of the chunk does. -/
theorem resumes_of_results {F : Finished} {t : State} {body : Block} {n : Nat} {w : World} {o : Ending}
    {items : List Item} (evaluated : (body.results n).outcome w = some o)
    (falls : ∀ env w' more, o = (.ok [], w') → Goes F t env (items ++ more) w' o) :
    (body.eval n []).Gives w o (Resumes F none t items o) := by
  rw [Block.results, Evaluation.outcome_bind] at evaluated
  unfold Evaluation.Gives
  cases came : (body.eval n []).outcome w with
  | none =>
    rw [came] at evaluated
    cases evaluated
  | some r =>
    rw [came] at evaluated
    match r with
    | (.error fault, w') => exact (Option.some.inj evaluated).symm
    | (.ok (.next env), w') => exact fun more => falls env w' more (Option.some.inj evaluated).symm
    | (.ok .break, w') => cases evaluated
    | (.ok (.return results), w') => exact (Option.some.inj evaluated).symm

/-- A run of a chunk from its start ends as the evaluation of the chunk does. -/
theorem emitChunk_ends {source : String} {body : Block} {u : CodeUnit} (free : body.isCallFree = true)
    (regular : body.Regular (Number.isNegative · = false)) (emitted : emitChunk source body = .ok u)
    {n : Nat} {w : World} {o : Ending} (evaluated : (body.results n).outcome w = some o)
    (args : Value) : Ends u 0 [.temporary args] w o := by
  have code : Adds (State.root source).builder.labels.size
      (do compileStatements none body; emit .ret 0 0 : Compiler Unit) (.root source)
      fun _ _ F => Ends F.unit 0 [.temporary args] w o := by
    refine (compileStatements_runs body none n free regular _).seq fun _ r _ => ?_
    refine (emit_adds .ret 0 0).mono fun _ t F ret performs => ?_
    refine performs.goes (resumes_of_results evaluated ?_) ⟨rfl, .nil⟩
    rintro env w' more rfl -
    rw [← append_temps_nil (_ ++ more)]
    exact Ends.ret ret.holds
  unfold emitChunk at emitted
  cases ran : StateT.run (do compileStatements none body; emit .ret 0 0 : Compiler Unit)
      (.root source) with
  | error e =>
    simp only [ran] at emitted
    cases emitted
  | ok r =>
    obtain ⟨⟨⟩, t⟩ := r
    obtain ⟨grown, holds⟩ := (code (root_ready source) (Nat.le_refl _)).ok ran
    simp only [ran] at emitted
    obtain ⟨small, settled, words, -, -, -, constants, -⟩ := Builder.finish_eq_ok emitted
    exact holds ⟨t.builder, u, ⟨small, words, settled, constants, grown.ready.places⟩⟩ (.refl 0 _)

/-! ## Runs of chunks -/

/-- A machine that has just entered a chunk. -/
theorem enter_shows {m : Machine} {u : CodeUnit} (idle : m.Idle) (bare : m.world.Bare)
    (frames : 1 ≤ m.config.maxCallDepth) (cells : 1 ≤ m.config.maxStack) (args : List Value) :
    ∃ m', Exec.enter ⟨u, #[]⟩ args 0 0 (m.modifyThread 0 fun _ => {}) = .ok () m' ∧
      m'.Shows u 0 [.multi args] m.world := by
  let k := m.modifyThread 0 fun _ => {}
  have inside : k.running < k.threads.size := by simpa [k, idle.running] using idle.inside
  have current : k.current = {} := by
    rw [Machine.current, show k.running = 0 from idle.running]
    exact Machine.thread_modifyThread_self idle.inside
  have free : ¬k.AtLimit := by
    simp only [Machine.AtLimit, current, List.length_nil, Array.size_empty, k,
      Machine.config_modifyThread]
    omega
  have entered : (k.modifyCurrent (Thread.framed ⟨u, #[]⟩ 0 0)).current =
      Thread.framed ⟨u, #[]⟩ 0 0 {} := by
    rw [Machine.current_modifyCurrent inside, current]
  have shown : (k.modifyCurrent (Thread.framed ⟨u, #[]⟩ 0 0)).Shows u 0 [] m.world := by
    refine ⟨idle.running, idle.waiting, by simpa using inside, ?_, ?_, ?_, ?_, ?_, rfl, rfl, bare⟩
    all_goals rw [entered]; simp [Thread.framed]
  exact ⟨_, by rw [Exec.enter_apply, if_neg free], shown.push _⟩

/-- Whatever the evaluation of a chunk without calls comes to, its compiled unit comes to as well when it
is executed on tables without metatables: the same results or the same fault, which is located in the
chunk, and the same globals and tables. -/
theorem compile_preserves_meaning (text label : String) (body : Block) (u : CodeUnit) (m : Machine)
    (args : List Value) (n : Nat) (r : Except Fault (List Value)) (w : World)
    (parsed : Parser.parse text = .ok body) (free : body.isCallFree = true)
    (compiled : compile label body = .ok u) (idle : m.Idle) (bare : m.world.Bare)
    (frames : 1 ≤ m.config.maxCallDepth) (cells : 1 ≤ m.config.maxStack)
    (evaluated : (body.results n).outcome m.world = some (r, w)) :
    ∃ steps line m', m.execute steps u args = some (r.mapError (·.locate u.source line), m') ∧
      m'.globals = w.globals ∧ m'.store.tables = w.tables := by
  have regular := Parser.parse_unsigned parsed
  rw [compile_eq_emitChunk regular] at compiled
  -- the closure that is called is the newest one
  let k : Machine := { m with store := (m.store.newClosure ⟨u, #[]⟩).2 }
  have idle' : k.Idle := ⟨idle.running, idle.waiting, idle.inside, idle.frames⟩
  obtain ⟨m₁, entered, shown⟩ := enter_shows (u := u) idle' bare frames cells args
  have ends := emitChunk_ends free regular compiled evaluated (.multi args)
  obtain ⟨steps, line, m', ran, after⟩ := ends ⟨List.nodup_nil, nofun⟩ m₁ shown
  refine ⟨steps, line, m', ?_, after⟩
  have found : k.store.closures[m.store.closures.size]? = some ⟨u, #[]⟩ := by
    simp [k, Store.newClosure]
  have called : k.call steps (.closure m.store.closures.size) args = m₁.run steps := by
    simp only [Machine.call, found, entered, Thread.isDead, idle'.waiting, idle'.frames]
    rfl
  exact called.trans ran

/-- `local t = {} while not t.x do t.x = true end return t.x` -/
def fillOnce : Block where
  stmts := [.local ["t"] [.table [] 1] 1,
    .while (.unary .not (.field (.name "t" 1) "x" 1) 1)
      ⟨[.assign [.field (.name "t" 1) "x" 1] [.boolean true 1] 1], none, 1⟩ 1]
  ret := some ⟨[.field (.name "t" 1) "x" 1], 1⟩
  line := 1

/-- Whether a program is the one above. -/
def isFillOnce : Block → Bool
  | ⟨[.local ["t"] [.table [] 1] 1,
      .while (.unary .not (.field (.name "t" 1) "x" 1) 1)
        ⟨[.assign [.field (.name "t" 1) "x" 1] [.boolean true 1] 1], none, 1⟩ 1],
      some ⟨[.field (.name "t" 1) "x" 1], 1⟩, 1⟩ => true
  | _ => false

theorem eq_of_isFillOnce {program : Block} (h : isFillOnce program = true) : program = fillOnce := by
  unfold isFillOnce at h
  split at h
  · rfl
  · cases h

/-- A loop that ends in its second round. -/
theorem compile_preserves_meaning_loop :
    Parser.parse "local t = {} while not t.x do t.x = true end return t.x" = .ok fillOnce ∧
      ∃ u w steps m', compile "test" fillOnce = .ok u ∧
        (fillOnce.results 2).outcome (Machine.world { config := {} }) = some (.ok [.boolean true], w) ∧
        Machine.execute { config := {} } steps u [] = some (.ok [.boolean true], m') := by
  have read : (Parser.parse "local t = {} while not t.x do t.x = true end return t.x").toOption.any
      isFillOnce = true := by decide +kernel
  obtain ⟨program, parsed, same⟩ := exists_of_any read
  obtain rfl := eq_of_isFillOnce same
  obtain ⟨u, emitted, -⟩ : ∃ u, emitChunk "test" fillOnce = .ok u ∧ true = true :=
    exists_of_any (by decide +kernel)
  obtain ⟨w, evaluated⟩ : ∃ w, (fillOnce.results 2).outcome (Machine.world { config := {} }) =
      some (.ok [.boolean true], w) := ⟨_, by cbv⟩
  have compiled : compile "test" fillOnce = .ok u := by
    rw [compile_eq_emitChunk (Parser.parse_regular parsed), emitted]
  obtain ⟨steps, line, m', ran, -⟩ := compile_preserves_meaning _ "test" fillOnce u { config := {} } [] 2
    _ w parsed rfl compiled ⟨rfl, rfl, by simp, rfl⟩ (by simp [World.Bare, Machine.world]) (by decide)
    (by decide) evaluated
  exact ⟨parsed, u, w, steps, m', compiled, evaluated, ran⟩

end Compiler

end ScriptEngine
