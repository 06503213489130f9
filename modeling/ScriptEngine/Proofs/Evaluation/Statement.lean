import ScriptEngine.Proofs.Evaluation.Assignment

/-!
# What compiled statements do

A statement ends by going on after its code, at the exit of the loop around it or with the results of
the chunk, and `Resumes` says what is needed of the run in each of these cases. The code of a statement
takes a run from there back to its beginning (`Runs`).
-/

set_option linter.dupNamespace false

namespace ScriptEngine.Compiler

variable {F : Finished} {s t : State} {k : Nat} {exit : Option LoopExit} {env : Environment}
  {items : List Item} {w : World} {o : Ending}

/-! ## Scopes -/

/-- Code of the unit from `s` to `t` that releases what is not live at `outer`. -/
structure Releases (F : Finished) (s t : State) (outer : Scope) : Prop where
  locals : t.locals = s.locals
  depth : t.depth = min s.depth outer.depth
  ends : ∀ {items w o}, items.length = s.depth → Ends F.unit t.ip (items.take outer.depth) w o →
    Ends F.unit s.ip items w o

theorem Drops.releases {r : State} {outer : Scope} (h : Drops F r t (s.depth - outer.depth))
    (locals : r.locals = s.locals) (depth : r.depth = s.depth)
    (first : ∀ {items w o}, Ends F.unit r.ip items w o → Ends F.unit s.ip items w o) :
    Releases F s t outer := by
  have dropped := h.depth
  refine ⟨h.locals.trans locals, by omega, fun {items w o} size next => first ?_⟩
  rw [← List.take_append_drop outer.depth items]
  exact h.ends (by rw [List.length_drop, size]) next

theorem release_adds (outer : Scope) : Adds k (release outer) s fun _ t F => Releases F s t outer := by
  refine Adds.read ?_
  dsimp only
  split
  · refine (emit_adds .popClosed _ 0).seq fun _ r _ => (pop_adds _).mono fun _ t F drops emits => ?_
    refine drops.releases emits.locals (emits.pushes rfl) fun next => ?_
    exact Ends.popClosed emits.holds (by rw [← emits.ip]; exact next)
  · exact (pop_adds _).mono fun _ t F drops => drops.releases rfl rfl id

/-- Code of the unit from `s` to `t` that takes the run back to `outer`. -/
structure Closes (F : Finished) (s t : State) (outer : Scope) : Prop where
  locals : t.locals = outer.locals
  depth : t.depth = min s.depth outer.depth
  goes : ∀ {env outside items more w o}, outer.Describes outside items →
    Goes F t outside items w o → Goes F s env (items ++ more) w o

theorem closeScope_adds (outer : Scope) :
    Adds k (closeScope outer) s fun _ t F => Closes F s t outer := by
  refine (release_adds outer).seq fun _ r _ => Adds.turn rfl rfl fun F releases => ?_
  refine ⟨rfl, releases.depth, fun {env outside items more w o} known next described => ?_⟩
  have size : (items ++ more).length = s.depth := described.depth
  refine releases.ends size ?_
  rw [List.take_left' known.depth]
  refine next ⟨?_, known.locals⟩
  have depth := releases.depth
  have same := known.depth
  rw [List.length_append] at size
  show items.length = r.depth
  omega

/-- A jump that leaves scopes, after which the compiler goes on as if nothing had happened. -/
structure JumpsOut (F : Finished) (s t : State) (outer : Scope) (l : Nat) : Prop where
  locals : t.locals = s.locals
  depth : t.depth = s.depth
  ends : ∀ {items w o}, items.length = s.depth →
    (∀ address, F.Places l address → Ends F.unit address (items.take outer.depth) w o) →
      Ends F.unit s.ip items w o

theorem jumpOut_adds (outer : Scope) (l : Nat) :
    Adds k (jumpOut outer l) s fun _ t F => JumpsOut F s t outer l := by
  unfold jumpOut leaving
  refine Adds.read ?_
  rw [bind_assoc]
  refine (release_adds outer).seq fun _ r₁ _ => (jmp_adds l).seq fun _ r₂ _ => ?_
  refine Adds.turn rfl rfl ?_
  rintro F ⟨address, place, jump⟩ releases
  refine ⟨jump.locals.trans releases.locals, rfl, fun {items w o} size next => ?_⟩
  exact releases.ends size (Ends.jmp jump.holds (next address place))

/-! ## How statements end -/

/-- What is needed of a run for a statement to end as given, if the code of the statement ends at `t` and
begins with the given slots. -/
def Resumes (F : Finished) (exit : Option LoopExit) (t : State) (items : List Item) (o : Ending) :
    Exit → World → Prop
  | .next env, w => ∀ more, Goes F t env (items ++ more) w o
  | .break, w => ∀ e, exit = some e → ∀ address, F.Places e.label address →
      ∀ more, Ends F.unit address ((items ++ more).take e.scope.depth) w o
  | .return results, w => o = (.ok results, w)

/-- Code of the unit from `s` to `t` that does what `x` does. -/
structure Performs (F : Finished) (exit : Option LoopExit) (s t : State)
    (x : Environment → Evaluation Exit) : Prop where
  depth : s.depth ≤ t.depth
  goes : ∀ {env items w o}, (x env).Gives w o (Resumes F exit t items o) → Goes F s env items w o

/-- The code that `c` adds does what `x` does; a `break` in it leads to `exit`. -/
def Runs (exit : Option LoopExit) (c : Compiler Unit) (x : Environment → Evaluation Exit) : Prop :=
  ∀ s, Adds s.builder.labels.size c s fun _ t F => Performs F exit s t x

/-- Code that does what `x` does in a scope of its own. -/
structure Encloses (F : Finished) (exit : Option LoopExit) (s t : State)
    (x : Environment → Evaluation Exit) : Prop where
  locals : t.locals = s.locals
  depth : t.depth = s.depth
  goes : ∀ {env items w o},
    (x env).Gives w o (fun e => Resumes F exit t items o (e.outside env)) → Goes F s env items w o

theorem inScope_adds {c : Compiler Unit} {x : Environment → Evaluation Exit} (h : Runs exit c x) :
    Adds s.builder.labels.size (inScope c) s fun _ t F => Encloses F exit s t x := by
  refine Adds.read ((h s).seq fun _ r _ => (closeScope_adds s.scope).mono fun _ t F closes runs => ?_)
  have depth := closes.depth
  have grown := runs.depth
  refine ⟨closes.locals, by simp only [State.scope] at depth; omega, ?_⟩
  intro env items w o gives described
  refine runs.goes (gives.mono fun e w' resumes => ?_) described
  cases e with
  | next inner =>
    intro more
    have next := resumes []
    rw [List.append_nil] at next
    exact closes.goes described next
  | «break» => exact resumes
  | «return» results => exact resumes

theorem Runs.line {c : Compiler Unit} {x : Environment → Evaluation Exit} {line : Nat}
    (h : Runs exit c x) : Runs exit (do setLine line; c) x :=
  fun s => Adds.line ((h { s with line }).mono fun _ _ _ done => ⟨done.depth, done.goes⟩)

theorem Runs.nothing : Runs exit (pure ()) fun env => pure (.next env) := by
  refine fun s => Adds.pure fun F => ⟨Nat.le_refl _, fun {env items w o} gives => ?_⟩
  have next : Goes F s env (items ++ []) w o := gives []
  rwa [List.append_nil] at next

/-- What is declared by a statement stays below what the next one declares. -/
theorem Resumes.grown {e : Exit} (h : Resumes F exit t items o e w) (more : List Item) :
    Resumes F exit t (items ++ more) o e w := by
  cases e with
  | next inner =>
    intro others
    rw [List.append_assoc]
    exact h (more ++ others)
  | «break» =>
    intro e leads address place others
    rw [List.append_assoc]
    exact h e leads address place (more ++ others)
  | «return» results => exact h

/-- One statement after another. -/
theorem Runs.seq {c d : Compiler Unit} {x y : Environment → Evaluation Exit} (first : Runs exit c x)
    (second : Runs exit d y) :
    Runs exit (do c; d) fun env => do
      match ← x env with
      | .next inner => y inner
      | e => return e := by
  intro s
  refine (first s).seq fun _ r _ => (second r).mono fun _ t F after before => ?_
  refine ⟨before.depth.trans after.depth, fun {env items w o} gives => ?_⟩
  refine before.goes (gives.bind.mono fun e w' gives => ?_)
  cases e with
  | next inner =>
    intro more
    exact after.goes (gives.mono fun e w'' resumes => resumes.grown more)
  | «break» => exact gives
  | «return» results => exact gives

theorem block_runs {c : Compiler Unit} {x : Environment → Evaluation Exit} (h : Runs exit c x) :
    Runs exit (inScope c) fun env => do return (← x env).outside env :=
  fun _ => (inScope_adds h).mono fun _ _ _ inner =>
    ⟨Nat.le_of_eq inner.depth.symm, fun gives => inner.goes (gives.bind.mono fun _ _ next => next)⟩

/-! ## Leaving a block -/

theorem break_runs (e : LoopExit) : Runs (some e) (jumpOut e.scope e.label) fun _ => pure .break := by
  intro s
  refine (jumpOut_adds e.scope e.label).mono fun _ t F jumps => ?_
  refine ⟨Nat.le_of_eq jumps.depth.symm, fun {env items w o} gives described => ?_⟩
  refine jumps.ends described.depth fun address place => ?_
  have ended := gives e rfl address place []
  rwa [List.append_nil] at ended

/-- Code of the unit that returns the topmost `n` temporaries. -/
structure Returns (F : Finished) (s t : State) (n : Nat) : Prop where
  ends : ∀ {items vs w o}, vs.length = n → o = (.ok (vs.flatMap Value.spread), w) →
    Ends F.unit s.ip (items ++ temps vs) w o

theorem ret_adds (n : Nat) : Adds k (do
    let s ← get
    if s.upvalueCount < s.closed then emit .popClosed (s.closed - s.upvalueCount) 0
    emit .ret n 0) s fun _ t F => Returns F s t n := by
  have last {r : State} {j : Nat} : Adds j (emit .ret n 0) r fun _ t F => Returns F r t n := by
    refine (emit_adds .ret n 0).mono fun _ t F emits => ⟨?_⟩
    rintro items vs w o rfl rfl
    exact Ends.ret emits.holds
  refine Adds.read ?_
  split
  · refine (emit_adds .popClosed _ 0).seq fun _ r _ => last.mono fun _ t F returns emits => ⟨?_⟩
    intro items vs w o count ends
    refine Ends.popClosed emits.holds ?_
    rw [← emits.ip]
    exact returns.ends count ends
  · exact last

/-- The results of a chunk are the values of `x`; nothing runs after a return. -/
theorem return_runs {c : Compiler Unit} {x : Environment → Evaluation (List Value)} {n : Nat}
    (values : Computes c n x id) (line : Nat) :
    Runs exit (leaving do
      setLine line
      c
      setLine line
      let s ← get
      if s.upvalueCount < s.closed then emit .popClosed (s.closed - s.upvalueCount) 0
      emit .ret n 0) fun env => do return .return ((← x env).flatMap Value.spread) := by
  intro s
  unfold leaving
  refine Adds.read ?_
  rw [bind_assoc]
  refine Adds.line ?_
  rw [bind_assoc]
  refine (values _).seq fun _ r _ => ?_
  rw [bind_assoc]
  refine Adds.line ((ret_adds n).seq fun _ t _ => Adds.turn rfl rfl fun F returns pushed => ?_)
  refine ⟨Nat.le_refl _, fun {env items w o} gives described => ?_⟩
  have size : items.length = s.depth := described.depth
  have depth : r.depth = s.depth + n := pushed.depth
  refine pushed.goes (gives.bind.mono fun vs w' ended described' => returns.ends ?_ ended) described
  have count : items.length + (id vs).length = r.depth := described'.count
  show (id vs).length = n
  omega

/-! ## Declarations and assignments -/

/-- A declaration ends with the environment that has the new names. -/
theorem declare_gives {names : List String} {vs : List Value} {K : Exit → World → Prop}
    (count : vs.length = names.length)
    (gives : (do return .next (← Evaluation.declare env names vs) : Evaluation Exit).Gives w o K) :
    K (.next (declared env names w.memory.size)) (w.declares vs) := by
  have inner := gives.bind
  rw [Evaluation.Gives, outcome_declare env names vs w count] at inner
  exact inner

theorem local_runs {names : List String} {c : Compiler Unit} {x : Environment → Evaluation (List Value)}
    (values : Computes c names.length x (Value.adjust names.length)) :
    Runs exit (do c; bindLocals names) fun env => do
      let vs ← x env
      return .next (← Evaluation.declare env names (Value.adjust names.length vs)) := by
  intro s
  refine (values s).seq fun _ r _ => (bindLocals_adds names).mono fun _ t F binds pushed => ?_
  refine ⟨by rw [binds.depth, pushed.depth]; omega, fun {env items w o} gives => ?_⟩
  refine pushed.goes (gives.bind.mono fun vs w₁ gives => ?_)
  have count : (Value.adjust names.length vs).length = names.length := length_adjust ..
  exact binds.goes count (declare_gives count gives (w₁.fresh names.length))

/-- The values of `x` go into targets that are evaluated already. -/
def storing (env : Environment) (goals : List Target) (count : Nat) (x : Evaluation (List Value)) :
    Evaluation Exit := do
  let vs ← x
  assignAll env goals (Value.adjust count vs)
  return .next env

/-- An assignment of the values of `x`. -/
def assigning (targets : List Expr) (x : Environment → Evaluation (List Value)) (env : Environment) :
    Evaluation Exit := do
  let goals ← evalTargets env targets
  storing env goals targets.length (x env)

theorem assign_variable_runs {name : String} {line : Nat} {c : Compiler Unit}
    {x : Environment → Evaluation (List Value)} (values : Computes c 1 x (Value.adjust 1)) :
    Runs exit (do c; writeVar name) (assigning [.name name line] x) := by
  intro s
  refine (values s).seq fun _ r _ => (writeVar_adds name).mono fun _ t F takes pushed => ?_
  have depth := takes.depth
  rw [pushed.depth] at depth
  refine ⟨by omega, fun {env items w o} gives => pushed.goes ?_⟩
  have gives : (storing env [.variable name] 1 (x env)).Gives w o (Resumes F exit t items o) := gives
  refine gives.bind.mono fun vs w₁ gives => ?_
  obtain ⟨v, one⟩ := List.length_eq_one_iff.1 (length_adjust 1 vs)
  rw [one] at gives ⊢
  refine takes.goes (gives.bind.mono fun _ w₂ next => ?_)
  have next : Goes F t env (items ++ []) w₂ o := next []
  rwa [List.append_nil] at next

theorem assign_entry_runs {target : Expr} (free : target.isCallFree = true)
    (regular : target.Regular (Number.isNegative · = false))
    (entry : ∀ name line, target ≠ .name name line) {c : Compiler Unit}
    {x : Environment → Evaluation (List Value)} (values : Computes c 1 x (Value.adjust 1)) :
    Runs exit (do compilePlace target; c; emit .putTable 0 0) (assigning [target] x) := by
  intro s
  refine (compilePlace_computes free regular entry s).seq fun _ r₁ _ => (values r₁).seq fun _ r₂ _ => ?_
  refine (emit_adds .putTable 0 0).mono fun _ t F put pushed place => ?_
  have depth : t.depth = s.depth := by
    have := put.depth
    have := pushed.depth
    have := place.depth
    simp only [Instruction.stackEffect] at *
    omega
  refine ⟨Nat.le_of_eq depth.symm, fun {env items w o} gives described => ?_⟩
  have size : items.length = s.depth := described.depth
  refine place.goes (gives.bind.bind.mono fun goal w₁ gives described' => ?_) described
  have count := described'.count
  have depth₁ := place.depth
  match goal with
  | .variable name =>
    simp only [parts, List.length_nil] at count
    omega
  | .entry table key =>
    have gives : (storing env [.entry table key] 1 (x env)).Gives w₁ o (Resumes F exit t items o) :=
      gives
    refine pushed.goes (gives.bind.mono fun vs w₂ gives => ?_) described'
    obtain ⟨v, one⟩ := List.length_eq_one_iff.1 (length_adjust 1 vs)
    rw [one] at gives ⊢
    have stack : items ++ temps (parts (.entry table key)) ++ temps [v] =
        items ++ temps [table, key, v] := append_temps ..
    rw [stack]
    refine put.operate (by simp) (Exec.putTable_implements ..) (fun _ => rfl) ?_
    exact gives.bind.mono fun _ w₃ next => next (temps [])

theorem assign_runs {targets : List Expr} (free : targets.all Expr.isCallFree = true)
    (regular : ∀ e ∈ targets, e.Regular (Number.isNegative · = false)) {c : Compiler Unit}
    {x : Environment → Evaluation (List Value)}
    (values : Computes c targets.length x (Value.adjust targets.length)) :
    Runs exit (do
      let start := (← get).depth
      let places ← compileTargets targets
      let temporaries := (← get).depth - start
      c
      places.reverse.forM store
      pop temporaries) (assigning targets x) := by
  intro s
  refine Adds.read ((compileTargets_adds targets free regular).seq fun places r₁ _ => Adds.read ?_)
  refine (values r₁).seq fun _ r₂ _ => (stores_adds places).seq fun _ r₃ _ => ?_
  refine (pop_adds _).mono fun _ t F drops stored pushed aims => ?_
  obtain ⟨locals, depth, stores⟩ := stored
  have depth₁ := aims.depth
  have depth₂ := pushed.depth
  have depth₃ := drops.depth
  have count := aims.count
  refine ⟨by omega, fun {env items w o} gives described => ?_⟩
  have size : items.length = s.depth := described.depth
  refine aims.goes (gives.bind.mono fun goals w₁ gives xs located described₁ => ?_) described
  have size₁ := described₁.count
  refine pushed.goes (gives.bind.mono fun vs w₂ gives => ?_) described₁
  refine stores located ((length_adjust ..).trans (count.symm.trans located.length_eq)) ?_
  refine gives.bind.mono fun _ w₃ next described₃ => ?_
  refine drops.ends (by rw [length_temps]; omega) ?_
  have next : Goes F t env (items ++ temps []) w₃ o := next (temps [])
  have described : r₃.scope.Describes env (items ++ temps xs) := described₃
  rw [append_temps_nil] at next
  refine next ?_
  rw [← append_temps_nil items]
  exact described.turn drops.locals (by simp; omega)

/-! ## Conditions -/

/-- A conditional jump that takes its condition from the stack. -/
theorem Emits.jmpTrue {v : Value} {address : Nat} (h : Emits F s t .jmpTrue address 0)
    (yes : v.isTruthy = true → Ends F.unit address items w o)
    (no : v.isTruthy = false → Ends F.unit t.ip items w o) :
    Ends F.unit s.ip (items ++ temps [v]) w o := by
  refine Ends.jmpTrue h.holds ?_
  rw [← h.ip]
  cases truth : v.isTruthy with
  | true => exact yes truth
  | false => exact no truth

/-- Code of the unit from `s` to `t` that goes on if the value on top is truthy and jumps if not. -/
structure Unless (F : Finished) (s t : State) (l : Nat) : Prop where
  locals : t.locals = s.locals
  depth : t.depth + 1 = s.depth
  goes : ∀ {env items v w o}, (if v.isTruthy then Goes F t env items w o
      else ∀ address, F.Places l address → Ends F.unit address items w o) →
    Goes F s env (items ++ temps [v]) w o

theorem unless_adds (l : Nat) :
    Adds k (do emit .not 0 0; emitJump .jmpTrue false l) s fun _ t F => Unless F s t l := by
  refine (emit_adds .not 0 0).seq fun _ r _ => (jmpTrue_adds false l).mono ?_
  rintro - t F ⟨address, place, jump⟩ negate
  have locals := jump.locals.trans negate.locals
  have depth : t.depth + 1 = s.depth := by
    have := jump.depth
    have := negate.pushes (n := 0) rfl
    simp only [Bool.false_eq_true, if_false, Instruction.stackEffect, Nat.zero_ne_one] at *
    omega
  refine ⟨locals, depth, fun {env items v w o} next described => ?_⟩
  refine negate.apply (by simp) (Exec.not_implements _ 0 0 v) rfl (fun _ => ?_) described
  refine jump.jmpTrue (fun truth => ?_) fun truth => ?_
  · have truth : v.isTruthy = false := by simpa using truth
    rw [if_neg (by simp [truth])] at next
    exact next address place
  · have truth : v.isTruthy = true := by simpa using truth
    rw [if_pos truth] at next
    refine next ?_
    rw [← append_temps_nil items]
    exact described.turn locals (by simp; omega)

/-- Code of the unit from `s` to `t` that goes on if the condition holds and jumps if not. -/
structure Tests (F : Finished) (s t : State) (l : Nat) (x : Environment → Evaluation Value) : Prop where
  locals : t.locals = s.locals
  depth : t.depth = s.depth
  goes : ∀ {env items w o},
    (x env).Gives w o (fun v w' => if v.isTruthy then Goes F t env items w' o
      else ∀ address, F.Places l address → Ends F.unit address items w' o) → Goes F s env items w o

theorem test_adds {c : Compiler Unit} {x : Environment → Evaluation Value}
    (h : Computes c 1 x ([·])) (l : Nat) :
    Adds k (do c; emit .not 0 0; emitJump .jmpTrue false l) s fun _ t F => Tests F s t l x := by
  refine (h s).seq fun _ r _ => (unless_adds l).mono fun _ t F jumps cond => ?_
  have depth : t.depth = s.depth := by
    have := jumps.depth
    have := cond.depth
    omega
  refine ⟨jumps.locals.trans cond.locals, depth, fun gives => ?_⟩
  exact cond.goes (gives.mono fun v w' next => jumps.goes next)

theorem Adds.test {β : Type} {c : Compiler Unit} {rest : Compiler β}
    {x : Environment → Evaluation Value} {Q : β → State → Finished → Prop} (h : Computes c 1 x ([·]))
    (l : Nat) (next : ∀ t, Emitted s.builder.labels.size s t →
      Adds k rest t fun b r F => Tests F s t l x → Q b r F) :
    Adds k (do c; emit .not 0 0; emitJump .jmpTrue false l; rest) s Q := by
  have joined := (test_adds h l).seq fun _ => next
  simpa only [bind_assoc] using joined

/-! ## Alternatives -/

/-- Code of the unit from `s` to `t` that runs a clause whose condition holds and jumps to `l` after it,
and goes on at `t` if no condition holds. -/
structure Chooses (F : Finished) (exit : Option LoopExit) (s t : State) (l : Nat) (more : Bool)
    (x : Environment → Evaluation Exit → Evaluation Exit) : Prop where
  locals : t.locals = s.locals
  depth : t.depth = s.depth
  goes : ∀ {env items w o} {r : State} {other : Evaluation Exit},
    (more = false → other = pure (.next env)) →
    (∀ w', other.Gives w' o (Resumes F exit r items o) → Goes F t env items w' o) →
    (∀ w', Resumes F exit r items o (.next env) w' → ∀ address, F.Places l address →
      Ends F.unit address items w' o) →
    (x env other).Gives w o (Resumes F exit r items o) → Goes F s env items w o

theorem Chooses.nothing {l : Nat} {more : Bool} : Chooses F exit s s l more fun _ other => other :=
  ⟨rfl, rfl, fun _ after _ gives => after _ gives⟩

/-- The code that `c` adds runs the first of several clauses whose condition holds. -/
def Choosing (exit : Option LoopExit) (c : Compiler Unit) (l : Nat) (more : Bool)
    (x : Environment → Evaluation Exit → Evaluation Exit) : Prop :=
  ∀ s, Adds s.builder.labels.size c s fun _ t F => Chooses F exit s t l more x

/-- Code of the unit from `s` to `t` that jumps, or no code. -/
structure Skips (F : Finished) (s t : State) (l : Nat) (jumps : Bool) : Prop where
  locals : t.locals = s.locals
  depth : t.depth = s.depth
  ends : ∀ {items w o}, (jumps = true → ∀ address, F.Places l address → Ends F.unit address items w o) →
    (jumps = false → Ends F.unit t.ip items w o) → Ends F.unit s.ip items w o

theorem Adds.imp {α : Type} {c : Compiler α} {P Q : α → State → Finished → Prop} (h : Adds k c s P)
    (weaken : ∀ a t F, P a t F → Q a t F) : Adds k c s Q :=
  fun ready low => (h ready low).mono fun a t done =>
    ⟨done.1, fun F within => weaken a t F (done.2 F within)⟩

theorem Adds.skip {c : Compiler Unit} {Q : Unit → State → Finished → Prop} (l : Nat) (jumps : Bool)
    (next : ∀ t, Emitted s.builder.labels.size s t →
      Adds k c t fun a r F => Skips F s t l jumps → Q a r F) :
    Adds k (if jumps then (do emitJump .jmp false l; c) else c) s Q := by
  cases jumps with
  | true =>
    refine (jmp_adds l).seq fun _ t emitted => (next t emitted).imp ?_
    rintro a r F done ⟨address, place, jump⟩
    refine done ⟨jump.locals, jump.pushes (n := 0) rfl, fun leaves _ => ?_⟩
    exact Ends.jmp jump.holds (leaves rfl address place)
  | false =>
    intro ready low
    have rest := (next s (.refl ready)).imp fun _ _ _ done => done ⟨rfl, rfl, fun _ stays => stays rfl⟩
    exact rest ready low

theorem Choosing.clause {c d rest : Compiler Unit} {x : Environment → Evaluation Value}
    {y : Environment → Evaluation Exit} {z : Environment → Evaluation Exit → Evaluation Exit} {l : Nat}
    {more isLast : Bool} (cond : Computes c 1 x ([·])) (body : Runs exit d y)
    (others : Choosing exit rest l more z) (last : isLast = true → z = fun _ other => other) :
    Choosing exit (do
      let next ← newLabel
      c
      emit .not 0 0
      emitJump .jmpTrue false next
      inScope d
      if more || !isLast then emitJump .jmp false l
      placeLabel next
      rest) l more (fun env other => do
        if (← x env).isTruthy then return (← y env).outside env
        else z env other) := by
  intro s
  have size := size_labelled s
  have awaits := awaits_labelled s
  refine Adds.label (Adds.test cond _ fun r₁ e₁ => (inScope_adds body).seq fun _ r₂ e₂ => ?_)
  refine Adds.skip l _ fun r₃ e₃ => ?_
  refine Adds.place (Nat.le_refl _) (((awaits.after e₁).after e₂).after e₃) ((others _).mono ?_)
  rintro - t F choose next skip inner test
  have locals : (r₃.placed s.builder.labels.size).locals = s.locals :=
    skip.locals.trans (inner.locals.trans test.locals)
  have depth : (r₃.placed s.builder.labels.size).depth = s.depth :=
    skip.depth.trans (inner.depth.trans test.depth)
  refine ⟨choose.locals.trans locals, choose.depth.trans depth, ?_⟩
  intro env items w o r other alone after left gives described
  have described₃ : (r₃.placed s.builder.labels.size).scope.Describes env items :=
    described.same locals depth
  refine test.goes (gives.bind.mono fun v w₁ gives => ?_) described
  split
  · rename_i truth
    rw [if_pos truth] at gives
    refine inner.goes (gives.bind.mono fun e w₂ resumes => ?_)
    cases e with
    | next env' =>
      intro more' described'
      have none' : more' = [] := by
        have size₁ : items.length = s.depth := described.depth
        have size₂ : (items ++ more').length = r₂.depth := described'.depth
        have depth₂ : r₂.depth = s.depth := inner.depth.trans test.depth
        rw [List.length_append] at size₂
        exact List.eq_nil_of_length_eq_zero (by omega)
      subst none'
      rw [List.append_nil]
      refine skip.ends (fun _ => left w₂ resumes) fun alone' => ?_
      obtain ⟨single, isLast⟩ := Bool.or_eq_false_iff.1 alone'
      refine choose.goes alone after left ?_ described₃
      rw [last (by simpa using isLast), alone single]
      exact resumes
    | «break» => exact resumes
    | «return» results => exact resumes
  · rename_i truth
    rw [if_neg truth] at gives
    intro address place
    obtain rfl := place.unique next
    exact choose.goes alone after left gives described₃

theorem nothing_encloses : Encloses F exit s s fun env => pure (.next env) := by
  refine ⟨rfl, rfl, fun {env items w o} gives => ?_⟩
  have next : Goes F s env (items ++ []) w o := gives []
  rwa [List.append_nil] at next

theorem if_runs {c : Nat → Compiler Unit} {d : Compiler Unit}
    {x : Environment → Evaluation Exit → Evaluation Exit} {y : Environment → Evaluation Exit}
    {more : Bool} (clauses : ∀ l, Choosing exit (c l) l more x)
    (otherwise : ∀ s, Adds s.builder.labels.size d s fun _ t F => Encloses F exit s t y)
    (alone : more = false → y = fun env => pure (.next env)) :
    Runs exit (do
      let done ← newLabel
      c done
      d
      placeLabel done) fun env => x env (do return (← y env).outside env) := by
  intro s
  have awaits := awaits_labelled s
  refine Adds.label ((clauses _ s.labelled).seq fun _ r₁ e₁ => (otherwise r₁).seq fun _ r₂ e₂ => ?_)
  refine Adds.place_last (Nat.le_refl _) ((awaits.after e₁).after e₂) fun F done inner choose => ?_
  have locals : r₂.locals = s.locals := inner.locals.trans choose.locals
  have depth : r₂.depth = s.depth := inner.depth.trans choose.depth
  refine ⟨Nat.le_of_eq depth.symm, fun {env items w o} gives described => ?_⟩
  have described₁ : r₁.scope.Describes env items := described.same choose.locals choose.depth
  have described₂ : (r₂.placed s.builder.labels.size).scope.Describes env items :=
    described.same locals depth
  refine choose.goes (r := r₂.placed s.builder.labels.size) (fun single => ?_) (fun w₁ gives => ?_)
    (fun w₁ resumes address place => ?_) gives described
  · rw [alone single]
    rfl
  · exact inner.goes (gives.bind.mono fun e w₂ resumes => resumes)
  · obtain rfl := place.unique done
    have next : Goes F _ env (items ++ []) w₁ o := resumes []
    rw [List.append_nil] at next
    exact next described₂

end ScriptEngine.Compiler
