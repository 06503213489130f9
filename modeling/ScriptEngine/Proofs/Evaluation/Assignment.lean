import ScriptEngine.Proofs.Evaluation.Expression

/-!
# Declared and assigned variables

A declaration turns the topmost temporaries into variables; the compiler gives the next slots to the
new names, and the run gives them the next addresses. An assignment to several targets leaves the tables
and keys that it evaluates on the stack below the values, and stores from the last target to the first.
-/

set_option linter.dupNamespace false

namespace ScriptEngine.Compiler

variable {F : Finished} {s t : State} {k : Nat} {env : Environment} {items : List Item} {w : World}
  {o : Ending}

/-! ## Declarations -/

/-- The environment after a declaration whose first variable is at the given address. -/
def declared (env : Environment) : List String → Nat → Environment
  | [], _ => env
  | name :: names, address => declared ((name, address) :: env) names (address + 1)

theorem outcome_declare (env : Environment) (names : List String) (vs : List Value) (w : World)
    (count : vs.length = names.length) :
    (Evaluation.declare env names vs).outcome w =
      some (.ok (declared env names w.memory.size), w.declares vs) := by
  induction names generalizing env vs w with
  | nil =>
    obtain rfl := List.eq_nil_of_length_eq_zero count
    simp [Evaluation.declare, declared, World.declares]
  | cons name names ih =>
    obtain ⟨v, vs, rfl⟩ := List.exists_cons_of_length_eq_add_one count
    simp only [Evaluation.declare, Evaluation.outcome_bind, Evaluation.outcome_get,
      Evaluation.outcome_set]
    rw [ih _ _ _ (by simpa using count)]
    simp [World.newVariable, World.declares, declared]

/-- The names that are bound to the next slots stand for the variables in them. -/
theorem bind_matches {locals : List Local} (names : List String) (slot closurePos address : Nat)
    (known : Matches locals env items)
    (slots : ∀ i < names.length, items[slot + i]? = some (.named (address + i))) :
    Matches (bind names slot closurePos locals) (declared env names address) items := by
  induction names generalizing slot closurePos address locals env with
  | nil => exact known
  | cons name names ih =>
    refine ih (slot + 1) (closurePos + 1) (address + 1) (.cons ⟨rfl, slots 0 (by simp)⟩ known) ?_
    intro i inside
    rw [Nat.add_assoc, Nat.add_assoc, Nat.add_comm 1 i]
    exact slots (i + 1) (by simpa using inside)

/-- Code of the unit from `s` to `t` that declares the topmost temporaries. -/
structure Binds (F : Finished) (s t : State) (names : List String) : Prop where
  depth : t.depth = s.depth
  goes : ∀ {env items vs w o}, vs.length = names.length →
    Goes F t (declared env names w.memory.size) (items ++ w.fresh names.length) (w.declares vs) o →
      Goes F s env (items ++ temps vs) w o

theorem bindLocals_adds (names : List String) :
    Adds k (bindLocals names) s fun _ t F => Binds F s t names := by
  refine (emit_adds .closeVars names.length 0).seq fun _ r _ => ?_
  refine Adds.turn rfl rfl fun F emits => ⟨emits.pushes rfl, ?_⟩
  intro env items vs w o count next described
  have holds := emits.holds
  rw [← count] at holds
  refine Ends.closeVars holds ?_
  rw [← emits.ip, count]
  have size := described.count
  have depth := emits.pushes (n := 0) rfl
  have known : Matches r.locals env (items ++ w.fresh names.length) := by
    rw [emits.locals]
    exact Matches.mono described.locals fun i a found =>
      getElem?_append_of_eq_some (getElem?_append_temps.1 found) _
  refine next ⟨?_, bind_matches names _ _ _ known fun i inside => ?_⟩
  · show (items ++ w.fresh names.length).length = r.depth
    simp [World.fresh]
    omega
  · rw [show r.depth - names.length + i = items.length + i by omega,
      List.getElem?_append_right (by omega)]
    simp [World.fresh, inside]

/-! ## Stores -/

/-- Code of the unit from `s` to `t` that pops the top value and does `x` with it. -/
structure Takes (F : Finished) (s t : State) (x : Environment → Value → Evaluation Unit) : Prop where
  locals : t.locals = s.locals
  depth : t.depth + 1 = s.depth
  goes : ∀ {env items v w o}, (x env v).Gives w o (fun _ w' => Goes F t env items w' o) →
    Goes F s env (items ++ temps [v]) w o

theorem writeVar_adds (name : String) :
    Adds k (writeVar name) s fun _ t F => Takes F s t (Evaluation.write · name ·) := by
  intro ready
  refine Adds.read ?_ ready
  rcases ready.resolve name with ⟨l, found, leads⟩ | ⟨missing, leads⟩
  · rw [leads]
    refine Adds.read ((emit_adds .putStack (s.depth - l.slot) 0).mono fun _ t F emits => ?_)
    have depth : t.depth + 1 = s.depth := by
      have := emits.depth
      simp only [Instruction.stackEffect] at this
      omega
    refine ⟨emits.locals, depth, fun {env items v w o} gives described => ?_⟩
    obtain ⟨address, seen, slot⟩ := described.lookup_some found
    have slot := getElem?_append_temps.1 slot
    have size : items.length + 1 = s.depth := described.count
    rw [Evaluation.write, seen] at gives
    have holds := emits.holds
    rw [← size] at holds
    refine Ends.putVariable holds slot ?_
    rw [← emits.ip]
    refine gives ?_
    rw [← append_temps_nil items]
    exact described.turn emits.locals (by simp; omega)
  · rw [leads]
    refine (addConstant_adds (v := .string name) trivial).seq fun i r _ =>
      (emit_adds .putGlobal i 0).mono ?_
    rintro - t F emits ⟨⟨builder, rfl, same⟩, constant⟩
    have depth : t.depth + 1 = s.depth := by
      have := emits.depth
      simp only [Instruction.stackEffect] at this
      omega
    refine ⟨emits.locals, depth, fun {env items v w o} gives described => ?_⟩
    rw [Evaluation.write, described.lookup_none missing] at gives
    have holds := emits.holds
    have ip := emits.ip
    simp only [State.ip, same] at holds ip ⊢
    refine Ends.putGlobal holds constant ?_
    rw [← ip]
    refine gives ?_
    rw [← append_temps_nil items]
    exact described.turn emits.locals (by simp; omega)

/-- Where the table and the key of a target are. -/
def Located (items : List Item) : Place → Target → Prop
  | .variable name, target => target = .variable name
  | .entry slot, target => ∃ table key, target = .entry table key ∧
      items[slot]? = some (.temporary table) ∧ items[slot + 1]? = some (.temporary key)

theorem Located.append {place : Place} {target : Target} (h : Located items place target)
    (more : List Item) : Located (items ++ more) place target := by
  cases place with
  | «variable» name => exact h
  | entry slot =>
    obtain ⟨table, key, same, first, second⟩ := h
    exact ⟨table, key, same, getElem?_append_of_eq_some first more,
      getElem?_append_of_eq_some second more⟩

/-- Code of the unit from `s` to `t` that pops the top value into a place. -/
structure Stores (F : Finished) (s t : State) (place : Place) : Prop where
  locals : t.locals = s.locals
  depth : t.depth + 1 = s.depth
  goes : ∀ {env items target v w o}, Located items place target →
    (target.assign env v).Gives w o (fun _ w' => Goes F t env items w' o) →
      Goes F s env (items ++ temps [v]) w o

theorem store_adds (place : Place) : Adds k (store place) s fun _ t F => Stores F s t place := by
  cases place with
  | «variable» name =>
    refine (writeVar_adds name).mono fun _ t F takes => ⟨takes.locals, takes.depth, ?_⟩
    rintro env items _ v w o rfl gives
    exact takes.goes gives
  | entry slot =>
    refine (getSlot_adds slot).seq fun _ r₁ _ => (getSlot_adds (slot + 1)).seq fun _ r₂ _ => ?_
    refine (emit_adds .getStack 3 0).seq fun _ r₃ _ => (emit_adds .putTable 0 0).seq fun _ r₄ _ => ?_
    refine (pop_adds 1).mono fun _ t F drops put third second first => ?_
    have locals₄ := put.locals.trans (third.locals.trans (second.locals.trans first.locals))
    have depth₃ : r₂.depth = s.depth + 2 := by
      rw [second.pushes (n := 1) rfl, first.pushes (n := 1) rfl]
    have depth₄ : r₄.depth = s.depth := by
      have := put.depth
      have := third.depth
      simp only [Instruction.stackEffect] at *
      omega
    have depth : t.depth + 1 = s.depth := drops.depth.trans depth₄
    refine ⟨drops.locals.trans locals₄, depth, ?_⟩
    rintro env items _ v w o ⟨table, key, rfl, found, found'⟩ gives described
    have count : items.length + 1 = s.depth := described.count
    have below := getElem?_append_of_eq_some found (temps [v])
    have below' := getElem?_append_of_eq_some found' (temps [v])
    have top : (items ++ temps [v])[items.length]? = some (.temporary v) := by simp [temps]
    -- the value is the third slot from the top by now
    have copies : Emits F r₂ r₃ .getStack (r₂.depth - items.length) 0 := by
      rwa [show r₂.depth - items.length = 3 by omega]
    refine first.getStack below (second.getStack (getElem?_append_of_eq_some below' _)
      (copies.getStack (getElem?_append_of_eq_some (getElem?_append_of_eq_some top _) _) ?_)) described
    have stack : items ++ temps [v] ++ temps [(Item.temporary table).value w] ++
        temps [(Item.temporary key).value w] ++ temps [(Item.temporary v).value w] =
          items ++ temps [v] ++ temps [table, key, v] := by
      simp [temps, Item.value]
    rw [stack]
    refine put.operate (by simp) (Exec.putTable_implements ..) (fun _ => rfl) ?_
    refine gives.mono fun _ w' goes described' => ?_
    rw [append_temps_nil]
    refine drops.ends rfl (goes ?_)
    rw [← append_temps_nil items]
    exact described.turn (drops.locals.trans locals₄) (by simp; omega)

/-- Values on top of the stack go into their places, the last one first. -/
theorem stores_adds (places : List Place) :
    Adds s.builder.labels.size (places.reverse.forM store) s fun _ t F =>
      t.locals = s.locals ∧ t.depth + places.length = s.depth ∧
      ∀ {env items targets vs w o}, List.Forall₂ (Located items) places targets →
        vs.length = targets.length →
        (assignAll env targets vs).Gives w o (fun _ w' => Goes F t env items w' o) →
          Goes F s env (items ++ temps vs) w o := by
  induction places generalizing s with
  | nil =>
    refine Adds.pure fun F => ⟨rfl, rfl, ?_⟩
    rintro env items _ vs w o ⟨⟩ count gives
    obtain rfl := List.eq_nil_of_length_eq_zero count
    rw [append_temps_nil]
    exact gives
  | cons place places ih =>
    have split : (place :: places).reverse.forM store = (do places.reverse.forM store; store place) := by
      simp [List.forM_eq_forM]
    rw [split]
    refine ih.seq fun _ r _ => (store_adds place).mono ?_
    rintro - t F last ⟨locals, depth, goes⟩
    have depth' := last.depth
    refine ⟨last.locals.trans locals, by simp only [List.length_cons]; omega, ?_⟩
    rintro env items _ vs w o (_ | ⟨located, others⟩) count gives
    obtain ⟨v, vs, rfl⟩ := List.exists_cons_of_length_eq_add_one count
    have stack : items ++ temps (v :: vs) = items ++ temps [v] ++ temps vs :=
      (append_temps items [v] vs).symm
    rw [stack]
    refine goes (others.imp fun _ _ located => located.append _) (by simpa using count) ?_
    exact gives.bind.mono fun _ w' gives => last.goes located gives

/-! ## Targets -/

/-- The table and the key of a target. -/
def parts : Target → List Value
  | .variable _ => []
  | .entry table key => [table, key]

theorem compilePlace_computes {target : Expr} (free : target.isCallFree = true)
    (regular : target.Regular (Number.isNegative · = false)) (entry : ∀ name line, target ≠ .name name line) :
    Computes (compilePlace target) 2 (target.evalTarget ·) parts := by
  match target, entry with
  | .index table key line, _ =>
    obtain ⟨free, free'⟩ := Bool.and_eq_true_iff.1 free
    cases regular with
    | index regular regular' =>
      rw [compilePlace]
      intro s
      refine (compileExpr_computes table (.fixed 1) free regular s).seq fun _ r _ =>
        (compileExpr_computes key (.fixed 1) free' regular' r).mono fun _ t F second first => ?_
      refine ⟨second.locals.trans first.locals, by rw [second.depth, first.depth]; rfl, ?_⟩
      intro env items w o gives
      refine first.goes (gives.bind.mono fun v w₁ gives => second.goes ?_)
      refine gives.bind.mono fun v' w₂ gives => ?_
      show Goes F t env (items ++ temps [v] ++ temps [v']) w₂ o
      rw [two_temps]
      exact gives
  | .field table name line, _ =>
    cases regular with
    | field regular =>
      rw [compilePlace]
      intro s
      refine (compileExpr_computes table (.fixed 1) free regular s).seq fun _ r _ =>
        (loadConstant_computes (v := .string name) trivial r).mono fun _ t F second first => ?_
      refine ⟨second.locals.trans first.locals, by rw [second.depth, first.depth]; rfl, ?_⟩
      intro env items w o gives
      refine first.goes (gives.bind.mono fun v w₁ gives => second.goes ?_)
      show Goes F t env (items ++ temps [v] ++ temps [.string name]) w₁ o
      rw [two_temps]
      exact gives
  | .name name line, entry => exact absurd rfl (entry name line)
  | .nil _, _ | .boolean .., _ | .number .., _ | .string .., _ | .varargs _, _ | .paren .., _
  | .unary .., _ | .binary .., _ | .call .., _ | .methodCall .., _ | .function _, _ | .table .., _ =>
    rw [compilePlace]
    · exact fun s => Adds.throw
    all_goals nofun

/-- Code of the unit from `s` to `t` that evaluates the tables and keys of targets and leaves them on
the stack. -/
structure Aims (F : Finished) (s t : State) (targets : List Expr) (places : List Place) : Prop where
  locals : t.locals = s.locals
  depth : s.depth ≤ t.depth
  count : places.length = targets.length
  goes : ∀ {env items w o},
    (evalTargets env targets).Gives w o (fun goals w' => ∀ xs,
      List.Forall₂ (Located (items ++ temps xs)) places goals → Goes F t env (items ++ temps xs) w' o) →
      Goes F s env items w o

theorem compileTargets_adds (targets : List Expr) (free : targets.all Expr.isCallFree = true)
    (regular : ∀ e ∈ targets, e.Regular (Number.isNegative · = false)) :
    Adds s.builder.labels.size (compileTargets targets) s fun places t F =>
      Aims F s t targets places := by
  induction targets generalizing s with
  | nil =>
    rw [compileTargets]
    refine Adds.pure fun F => ⟨rfl, Nat.le_refl _, rfl, fun {env items w o} gives => ?_⟩
    rw [← append_temps_nil items]
    exact gives [] .nil
  | cons target rest ih =>
    obtain ⟨free, free'⟩ := Bool.and_eq_true_iff.1 free
    obtain ⟨here, others⟩ := List.forall_mem_cons.1 regular
    by_cases isName : ∃ name line, target = .name name line
    · obtain ⟨name, line, rfl⟩ := isName
      rw [compileTargets]
      refine (ih free' others).seq fun places t _ => Adds.pure fun F aims => ?_
      refine ⟨aims.locals, aims.depth, by simp [aims.count], fun {env items w o} gives => aims.goes ?_⟩
      refine gives.bind.bind.mono fun goals w' next xs located => ?_
      exact next xs (.cons rfl located)
    · have entry : ∀ name line, target ≠ .name name line := fun name line same =>
        isName ⟨name, line, same⟩
      rw [compileTargets_entry entry]
      refine (compilePlace_computes free here entry s).seq fun _ r _ => Adds.read ?_
      refine (ih free' others).seq fun places t _ => Adds.pure fun F aims place => ?_
      refine ⟨aims.locals.trans place.locals, ?_, by simp [aims.count], ?_⟩
      · have := place.depth
        have := aims.depth
        omega
      · intro env items w o gives described
        have size : items.length = s.depth := described.depth
        have depth := place.depth
        refine place.goes (gives.bind.mono fun goal w₁ gives described' => ?_) described
        have count := described'.count
        match goal with
        | .variable name =>
          simp only [parts, List.length_nil] at count
          omega
        | .entry table key =>
          refine aims.goes (gives.bind.mono fun goals w₂ next xs located => ?_) described'
          have stack : items ++ temps (parts (.entry table key)) ++ temps xs =
              items ++ temps ([table, key] ++ xs) := append_temps ..
          rw [stack] at located ⊢
          refine next _ (.cons ⟨table, key, rfl, ?_, ?_⟩ located)
          · rw [show r.depth - 2 = items.length by omega]
            simp [temps]
          · rw [show r.depth - 2 + 1 = items.length + 1 by omega]
            simp [temps]

end ScriptEngine.Compiler
