import ScriptEngine.Proofs.Machine.Errand

/-!
# Protected calls are settled rightly

Along a run of moves none of which slips, every chain of protected calls comes out right, however late
(`flagged_of_layered`): with one flag for each of them and what some move hands to the caller, or with the
fault of some move. A chain that slips comes out wrong (`not_flagged_of_slip`).
-/

set_option linter.dupNamespace false

namespace ScriptEngine.Machine

variable {m m' : Machine} {id : Nat}

/-- The call that `m` is about to make, with `a` arguments and for `want` results, has given `vs` in
`m'`: the caller goes on behind it with these values in the place of callee and arguments and with as
many handlers as before. -/
structure Returned (m m' : Machine) (a want : Nat) (vs : List Value) : Prop where
  running : m'.running = m.running
  frames : m'.current.frames = m.advance.current.frames
  handlers : m'.current.handlers.length = m.current.handlers.length
  stack : m'.current.stack.size + (a + 1) = m.current.stack.size + slots want
  values : m'.topValues (slots want) = delivered want vs

/-- From `m'` on, the call that `m` has made under `n` protected calls is under way until it gives `true`
for each of them and what some move hands to the caller, or `true` for each but one, `false` and the
fault of some move. -/
def Completes (m m' : Machine) (a want n : Nat) : Prop :=
  ∀ m'', m'.Runs m'' → (m''.thread m.running).Under m.advance.current.frames want n ∨
    ∃ m₁ m₂, m'.Runs m₁ ∧ m₁.Moves m₂ ∧ m₂.Runs m'' ∧
      ((∃ vs, m₁.Hands m.running vs ∧
          m.Returned m₂ a want (List.replicate n (Value.boolean true) ++ vs)) ∨
        ∃ fault k, Exec.step m₁ = .error fault k ∧ m.Returned m₂ a want
          (List.replicate (n - 1) (Value.boolean true) ++ [Value.boolean false, (k.locate fault).toValue]))

/-- The machine in which a chain of `n` protected calls calls its last argument. -/
def within (m : Machine) (a want n : Nat) : Machine := (m.advance.drop (a + 1)).guards want n

/-- What the call of `c` comes to by itself comes out of `n + 1` protected calls with one flag for each. -/
inductive Flagged (m : Machine) (a want n : Nat) : Reply → Prop where
  | values {m' : Machine} {vs : List Value} (step : Exec.step m = .ok none m')
      (returned : m.Returned m' a want (List.replicate (n + 1) (Value.boolean true) ++ vs)) :
      Flagged m a want n (.values vs)
  | entered {m' : Machine} {closure : Closure} {args : List Value} {g : Frame}
      (step : Exec.step m = .ok none m') (running : m'.running = m.running)
      (frames : m'.current.frames = g :: m.advance.current.frames) (runs : g.closure = closure)
      (start : g.ip = 0) (completes : m.Completes m' a want (n + 1)) :
      Flagged m a want n (.entered 0 closure args)
  | blocked {m' : Machine} {id : Nat} {vs : List Value} (step : Exec.step m = .ok none m')
      (running : m'.running = id) (completes : m.Completes m' a want (n + 1)) :
      Flagged m a want n (.blocked 0 id vs)
  | refused {m' : Machine} {fault : Fault} (step : Exec.step m = .ok none m')
      (returned : m.Returned m' a want
        (List.replicate n (Value.boolean true) ++ [Value.boolean false, fault.toValue])) :
      Flagged m a want n (.raised 0 fault)
  | raised {m' : Machine} {fault : Fault} (step : Exec.step m = .error fault m')
      (returned : m.Returned (m'.unwind (m'.locate fault)).2 a want
        (List.replicate n (Value.boolean true) ++ [Value.boolean false, (m'.locate fault).toValue])) :
      Flagged m a want n (.raised 0 fault)

section Chain

variable {f : Frame} {rest : List Frame} {a want n : Nat}

/-- Where the caller goes on behind an instruction that calls, handlers and stack are what its address
says. -/
theorem Poises.returned {op : Opcode} {b c : Nat} (poises : m.Poises f rest op a b)
    (touched : op.touched a b = c + 1)
    (size : (slots want : Int) = op.touched a b + Instruction.stackEffect op a b)
    (closed : Instruction.closedEffect op a = 0) (goesOn : op.continues = true)
    (after : m'.Ordered Thread.Active) {vs : List Value}
    (settled : m'.Settled m.running m.advance.current.frames want vs) : m.Returned m' c want vs := by
  obtain ⟨running, frames, values⟩ := settled
  have upright := after.current.2
  have base : m.advance.current.frames = { f with ip := f.ip + 1 } :: rest := by rw [poises.thread]
  rw [base] at frames
  rw [frames] at upright
  refine ⟨running, frames.trans base.symm, ?_, ?_, values⟩
  · rw [upright.below.length_handlers, poises.upright.below.length_handlers]
  · obtain ⟨captured, d, poised⟩ := poises.poised
    have enough := poised.touched_le
    rw [poises.thread] at enough
    have rests := poises.next (f.ip + 1) (m.current.stack.size + slots want - (c + 1))
      m.current.captures.size (Or.inl ⟨rfl, goesOn⟩) (by simp only at enough; omega)
      (by rw [closed, Int.add_zero])
    have := upright.rests.stack_unique rests
    simp only at enough
    omega

theorem size_call (a want : Nat) :
    (slots want : Int) = Opcode.call.touched a want + Instruction.stackEffect .call a want := by
  simp only [slots, Opcode.touched, Opcode.operands, Instruction.stackEffect]
  split <;> omega

theorem returned_of_settled (poises : m.Poises f rest .call a want)
    (after : m'.Ordered Thread.Active) {vs : List Value}
    (settled : m'.Settled m.running m.advance.current.frames want vs) : m.Returned m' a want vs :=
  poises.returned rfl (size_call a want) rfl rfl after settled

/-- The step that makes the call. -/
theorem step_chain (h : m.Ordered Thread.Active) (poises : m.Poises f rest .call a want)
    {args : List Value} (target : m.callTarget (m.top (a + 1)) (m.spread a) = .ok (.core .pcall, args)) :
    Exec.step m = (do Exec.pcall args want; pure none) (m.advance.drop (a + 1)) ∧
      (m.advance.drop (a + 1)).Ordered (Thread.Calling want) ∧ m.Alone (m.advance.drop (a + 1)) ∧
      (m.advance.drop (a + 1)).current.frames = m.advance.current.frames ∧
      (m.advance.drop (a + 1)).current.handlers = m.current.handlers := by
  have advanced := advance_ordered h
  have stack : m.advance.current.stack = m.current.stack := by rw [poises.thread]
  have spread : m.advance.spread a = m.spread a := by
    simp only [Machine.spread, stack]
    rfl
  have top : (m.advance.drop a).top 1 = m.top (a + 1) := by
    rw [show 1 = 0 + 1 from rfl, top_drop advanced.sane.running_lt, Nat.add_comm]
    simp only [Machine.top, Thread.cell?, stack]
    rfl
  have turns := Turns.drop advanced.sane (a + 1)
  have thread := turns.thread
  rw [poises.thread] at turns
  refine ⟨?_, advanced.turns turns (poises.calls h.current.1 (size_call a want) rfl rfl),
    .trans h.sane (.modifyCurrent h.sane _) turns.alone, by rw [thread], ?_⟩
  · have target : (m.advance.drop (a + 1)).callTarget (m.top (a + 1)) (m.spread a) =
        .ok (.core .pcall, args) := target
    rw [poises.performs (by simp)]
    simp only [Exec.perform, Exec.bind_apply, Exec.popSpread_eq, Exec.pop_apply, drop_drop, spread, top,
      Exec.call, Exec.get_apply, target, Exec.ofExcept_ok]
    rfl
  · rw [thread, poises.thread]

/-- A fault inside protected calls none of which knows of the others goes to the innermost of them. -/
theorem unwind_raised (h : m.Sane) {k : Nat} (raised : m.Raised m' want (k + 1)) (fault : Fault) :
    (m'.unwind fault).2.running = m.running ∧
      (m'.unwind fault).2.current.frames = m.current.frames ∧
      (m'.unwind fault).2.current.handlers.length = m.current.handlers.length + k ∧
      (k = 0 → (m'.unwind fault).2.topValues (slots want) =
        delivered want [.boolean false, fault.toValue]) := by
  obtain ⟨hs, length, noted, last, thread⟩ := raised.thread
  have inside := (h.alone raised.alone).running_lt
  cases hs with
  | nil => simp at length
  | cons g hs =>
    obtain ⟨frames, -, -, wraps⟩ := noted g List.mem_cons_self
    have handlers : (m'.thread m'.running).handlers = g :: (hs ++ m.current.handlers) := by
      rw [show m'.thread m'.running = m'.current from rfl, thread]
      rfl
    have caught : (m'.unwind fault).2 = m'.catchWith g (hs ++ m.current.handlers) fault := by
      rw [unwind, unwindFrom, handlers]
    rw [caught]
    refine ⟨?_, ?_, ?_, fun single => ?_⟩
    · rw [running_catchWith]
      exact raised.alone.running
    · rw [current_catchWith inside, thread]
      simp [Thread.withCells, Thread.restore, frames]
    · rw [current_catchWith inside]
      simp only [Thread.withCells, wraps, List.drop_zero, List.length_append]
      simp only [List.length_cons] at length
      omega
    · have alone : hs = [] := List.eq_nil_of_length_eq_zero (by
        simp only [List.length_cons] at length
        omega)
      have wants : g.want = want := last g (by simp [alone])
      rw [catchWith, wraps]
      simp only [List.take_zero, List.getLast?_nil, Option.getD_none, wants, List.replicate_zero,
        List.nil_append]
      exact topValues_pushResults (by simpa using inside) _ _

/-- A call that is under way after the step that made it comes out right. -/
theorem completes_of_under (poises : m.Poises f rest .call a want) (after : m'.Ordered Thread.Active)
    (under : (m'.thread m.running).Under m.advance.current.frames want (n + 1)) :
    m.Completes m' a want (n + 1) := by
  let e : Errand :=
    ⟨m.running, m.advance.current.frames, want, n + 1, false, decide (m.running ∈ m'.waiting)⟩
  have alive : e.base ≠ [] := by simp [e, poises.thread]
  have pending : e.Pending m' := by
    by_cases here : m.running = m'.running
    · exact Or.inl (under.above (here ▸ after.current) (Nat.succ_pos n))
    · exact under.imp_right fun waits => ⟨here, by simp [e], waits⟩
  intro m'' run
  rcases errand_run after pending alive run with pending | ⟨m₁, m₂, before, moves, later, ordered, ended⟩
  · exact Or.inl (pending.imp_right fun apart => apart.2.2)
  · refine Or.inr ⟨m₁, m₂, before, moves, later, ?_⟩
    cases ended with
    | @handed vs results hands gives settles =>
      have same : results = List.replicate (n + 1) (Value.boolean true) ++ vs := by cases gives <;> rfl
      exact Or.inl ⟨vs, hands, returned_of_settled poises ordered (same ▸ settles)⟩
    | caught some' failed settles =>
      exact Or.inr ⟨_, _, failed, returned_of_settled poises ordered settles⟩
    | lost _ lost => exact absurd lost.1 (Nat.succ_ne_zero n)

/-- Where no fault slips, a chain of protected calls gives one flag for each of them. -/
theorem flagged_of_layered (h : m.Ordered Thread.Active) (poises : m.Poises f rest .call a want)
    {args : List Value} (target : m.callTarget (m.top (a + 1)) (m.spread a) = .ok (.core .pcall, args))
    {c : Value} {given : List Value} {reply : Reply}
    (layered : (m.advance.drop (a + 1)).Layered c given want (n + 1) reply
      (Exec.pcall args want (m.advance.drop (a + 1))))
    (right : ∀ k fault, reply = .raised k fault → n = 0 ∨ m.checks c given = true) :
    m.Flagged a want n reply := by
  obtain ⟨step, calling, alone, frames, handlers⟩ := step_chain h poises target
  have running := alone.running
  have sane := calling.sane
  have checks : (m.advance.drop (a + 1)).checks c given = m.checks c given := rfl
  have out := layered.guarded
  have single := layered.single
  rw [checks] at out
  simp only [Exec.bind_apply] at step
  -- a call that is over at once
  have finished {vs : List Value} (done : reply.layered (n + 1) (m.checks c given) = .values vs) :
      ∃ m', Exec.step m = .ok none m' ∧ m.Returned m' a want vs := by
    rw [done] at out
    generalize Exec.pcall args want (m.advance.drop (a + 1)) = r at out step
    cases out with
    | @values m₂ _ alone₂ same =>
      have after : (m₂.pushResults want vs).Ordered Thread.Active :=
        calling.outcome_ok (.values alone₂ same)
      have inside := (sane.alone alone₂).running_lt
      refine ⟨_, step, returned_of_settled poises after ⟨?_, ?_, topValues_pushResults inside _ _⟩⟩
      · rw [pushResults, running_pushResultsOn, alone₂.running, running]
      · rw [current_pushResults inside, Thread.frames_withCells, same]
        exact frames
  cases reply with
  | values vs =>
    obtain ⟨m', step, returned⟩ := finished rfl
    exact .values step returned
  | entered k closure given' =>
    cases single
    simp only [Reply.layered, Nat.zero_add] at out
    generalize Exec.pcall args want (m.advance.drop (a + 1)) = r at out step
    cases out with
    | @entered m' _ _ _ entered =>
      have after := calling.outcome_ok (.entered entered)
      obtain ⟨cell, hs, -, -, thread⟩ := entered.thread
      have running' : m'.running = m.running := entered.alone.running.trans running
      have top : ∃ g, m'.current.frames = g :: m.advance.current.frames ∧ g.closure = closure ∧
          g.ip = 0 ∧ g.want = want ∧ g.protections = n + 1 ∧ g.isCondition = false := by
        rw [thread, ← frames]
        exact ⟨_, rfl, rfl, rfl, rfl, rfl, rfl⟩
      obtain ⟨g, frames', runs, start, fits⟩ := top
      refine .entered step running' frames' runs start (completes_of_under poises after (Or.inl ?_))
      rw [← running']
      exact ⟨[], g, frames', fits⟩
  | blocked k id vs =>
    cases single
    simp only [Reply.layered, Nat.zero_add] at out
    generalize Exec.pcall args want (m.advance.drop (a + 1)) = r at out step
    cases out with
    | @blocked m' _ _ _ switched =>
      have after := calling.outcome_ok (.blocked switched)
      obtain ⟨hs, -, caller⟩ := switched.caller
      refine .blocked step switched.running (completes_of_under poises after (Or.inr ?_))
      rw [← running, caller]
      exact ⟨frames, rfl, by simp [calling.current.1]⟩
  | raised k fault =>
    cases single
    cases checked : m.checks c given with
    | true =>
      obtain ⟨m', step, returned⟩ := finished (by rw [checked]; rfl)
      exact .refused step returned
    | false =>
      rcases right 0 fault rfl with rfl | checked'
      · rw [checked] at out
        simp only [Reply.layered, Bool.false_eq_true, if_false, Nat.zero_add] at out
        generalize Exec.pcall args want (m.advance.drop (a + 1)) = r at out step
        cases out with
        | @raised m' _ _ raised =>
          have after : m'.Ordered Thread.Recoverable :=
            calling.outcome_error (Outcome.raised raised : Outcome _ _ _ (.error fault m'))
              (Nat.le_refl 1)
          have ordered := unwind_ordered after (m'.locate fault)
          obtain ⟨running', frames', -, values⟩ := unwind_raised sane raised (m'.locate fault)
          exact .raised step (returned_of_settled poises ordered
            ⟨running'.trans running, frames'.trans frames, values rfl⟩)
      · rw [checked] at checked'
        cases checked'

/-- A chain of at least two protected calls whose last callee raises a fault in the very step gives no
results with as many handlers as before. -/
theorem not_flagged_of_slip (h : m.Ordered Thread.Active) (poises : m.Poises f rest .call a want)
    {args : List Value} (target : m.callTarget (m.top (a + 1)) (m.spread a) = .ok (.core .pcall, args))
    {c : Value} {given : List Value} {fault : Fault} {k : Nat}
    (layered : (m.advance.drop (a + 1)).Layered c given want (n + 1) (.raised k fault)
      (Exec.pcall args want (m.advance.drop (a + 1))))
    (several : 1 ≤ n) (unchecked : m.checks c given = false) {k' : Nat} {fault' : Fault} :
    ¬m.Flagged a want n (.raised k' fault') := by
  obtain ⟨step, calling, alone, frames, handlers⟩ := step_chain h poises target
  have checks : (m.advance.drop (a + 1)).checks c given = m.checks c given := rfl
  have out := layered.guarded
  have single : k = 0 := layered.single
  simp only [checks, unchecked, Reply.layered, Bool.false_eq_true, if_false, single, Nat.zero_add] at out
  simp only [Exec.bind_apply] at step
  generalize Exec.pcall args want (m.advance.drop (a + 1)) = r at out step
  cases out with
  | @raised m' _ _ raised =>
    intro flagged
    cases flagged with
    | refused step' _ =>
      rw [step] at step'
      cases step'
    | raised step' returned =>
      rw [step] at step'
      cases step'
      obtain ⟨-, -, more, -⟩ := unwind_raised calling.sane raised (m'.locate fault)
      have same := returned.handlers
      rw [more, handlers] at same
      omega

end Chain

/-- The one frame of a chunk on the program's thread takes the value of a global. -/
theorem step_getGlobal {u : CodeUnit} {i : Nat} {stack : List Nat} {ins : Instruction} {name : String}
    {values : Array Value} {v : Value} (running : m.running = 0)
    (threads : m.threads = #[⟨stack.toArray, #[], [⟨⟨u, #[]⟩, i, 0, 0, 0, 0, false⟩], [], 0, 0⟩])
    (cells : m.store.cells = values) (code : u.code[i]? = some ins)
    (opcode : ins.opcode? = some .getGlobal)
    (constant : u.constants[ins.a.toNat]? = some (.string name)) (value : m.global name = v) :
    ∃ m' : Machine, Exec.step m = .ok none m' ∧ ¬m.Slips ∧ m'.running = 0 ∧
      m'.threads = #[⟨(stack ++ [values.size]).toArray, #[],
        [⟨⟨u, #[]⟩, i + 1, 0, 0, 0, 0, false⟩], [], 0, 0⟩] ∧
      m'.store.cells = values.push v ∧ m'.globals = m.globals ∧ m'.waiting = m.waiting ∧
      m'.store.closures = m.store.closures ∧ m'.config = m.config := by
  have current : m.current =
      ⟨stack.toArray, #[], [⟨⟨u, #[]⟩, i, 0, 0, 0, 0, false⟩], [], 0, 0⟩ := by
    simp [Machine.current, thread, threads, running]
  have step : Exec.step m = .ok none (m.advance.push v) := by
    simp only [Exec.step, Exec.bind_apply, Exec.get_apply, current, Exec.set_apply, code, opcode,
      Exec.perform, Exec.globalName, Exec.constant, constant]
    rw [← value]
    simp [advance, modifyCurrent, modifyThread, threads, running, Thread.modifyFrame]
    rfl
  refine ⟨_, step, ?_, running, ?_, ?_, rfl, rfl, rfl, rfl⟩
  · rintro ⟨fault, m', failed, -⟩
    rw [step] at failed
    cases failed
  · simp [advance, push, pushOn, Store.newCell, modifyCurrent, modifyThread, threads, running,
      Thread.modifyFrame, cells]
  · simp [advance, push, pushOn, Store.newCell, modifyCurrent, modifyThread, cells]

/-- The next instruction of a chunk. -/
theorem next?_ofChunk {u : CodeUnit} {i : Nat} {stack : List Nat} {op : Opcode} {a : UInt16} {b : UInt8}
    (running : m.running = 0)
    (threads : m.threads = #[⟨stack.toArray, #[], [⟨⟨u, #[]⟩, i, 0, 0, 0, 0, false⟩], [], 0, 0⟩])
    (code : u.code[i]? = some (.make op a b)) : m.next? = some (op, a.toNat, b.toNat) := by
  simp [next?, current, thread, threads, running, code, Instruction.make, Instruction.opcode?]

/-- A chunk that calls the global `p` with the global `s` has come to its call. -/
theorem Reachable.launch_call {Barred : Machine → Prop} (h : m.Reachable Barred) (fresh : m.Fresh)
    (quiet : ∀ (k : Machine) (a b : Nat), k.next? = some (.getGlobal, a, b) → ¬Barred k) {f v : Value}
    (called : m.global "p" = f) (given : m.global "s" = v) (single : v.spread = [v]) :
    ∃ (m' : Machine) (u : CodeUnit), m'.Reachable Barred ∧ m'.running = 0 ∧ m'.waiting = [] ∧
      m'.threads = #[⟨#[0, 1, 2], #[], [⟨⟨u, #[]⟩, 2, 0, 0, 0, 0, false⟩], [], 0, 0⟩] ∧
      m'.next? = some (.call, 1, 0) ∧ m'.nextCall? = some (f, [v], 0) ∧
      m'.store.closures = m.store.closures.push ⟨u, #[]⟩ ∧ m'.config = m.config := by
  obtain ⟨u, compiled, code, callee, argument⟩ : ∃ u, Compiler.compileSource "return p(s)" "test" = .ok u ∧
      u.code = #[Instruction.make .getGlobal 0 0, .make .getGlobal 1 0, .make .call 1 0, .make .ret 1 0,
        .make .ret 0 0] ∧
      u.constants[0]? = some (Value.string "p") ∧ u.constants[1]? = some (Value.string "s") :=
    Compiler.compileSource_of_any (by decide +kernel)
  have first : u.code[0]? = some (Instruction.make .getGlobal 0 0) := by simp [code]
  have second : u.code[1]? = some (Instruction.make .getGlobal 1 0) := by simp [code]
  have third : u.code[2]? = some (Instruction.make .call 1 0) := by simp [code]
  obtain ⟨m₀, reach, running, waiting, threads, cells, globals, closures, config⟩ :=
    h.launch fresh compiled []
  obtain ⟨m₁, step₁, -, running₁, threads₁, cells₁, globals₁, waiting₁, closures₁, config₁⟩ :=
    step_getGlobal running threads cells first (Instruction.opcode?_make ..) callee
      (show m₀.global "p" = f by rw [global, globals]; exact called)
  obtain ⟨m₂, step₂, -, running₂, threads₂, cells₂, -, waiting₂, closures₂, config₂⟩ :=
    step_getGlobal running₁ threads₁ cells₁ second (Instruction.opcode?_make ..) argument
      (show m₁.global "s" = v by rw [global, globals₁, globals]; exact given)
  have next := next?_ofChunk running₂ threads₂ third
  have current : m₂.current = ⟨#[0, 1, 2], #[], [⟨⟨u, #[]⟩, 2, 0, 0, 0, 0, false⟩], [], 0, 0⟩ := by
    rw [Machine.current, thread, threads₂, running₂]
    rfl
  refine ⟨m₂, u, (reach.step (quiet _ _ _ (next?_ofChunk running threads first)) step₁).step
    (quiet _ _ _ (next?_ofChunk running₁ threads₁ second)) step₂, running₂, ?_, threads₂, next, ?_, ?_, ?_⟩
  · rw [waiting₂, waiting₁, waiting]
  · have callee : m₂.top 2 = f := by simp [top, current, Thread.cell?, Store.cell, cells₂]
    have values : m₂.spread 1 = [v] := by simp [Machine.spread, current, Store.cell, cells₂, single]
    rw [nextCall?, next]
    simp [request?, callee, values]
  · rw [closures₂, closures₁, closures]
  · rw [config₂, config₁, config]

/-- A chain of `n + 1` protected calls of `c` gives one flag for each of them, however late `c` is over,
unless there are at least two and `c` is a core function or a closure whose call raises a fault in the
very step: exactly then it does not. -/
theorem nested_pcall_flagged_iff (reach : m.Reachable Slips) {a want n : Nat} {c : Value}
    {args : List Value} (call : m.next? = some (.call, a, want))
    (target : m.callTarget (m.top (a + 1)) (m.spread a) =
      .ok (.core .pcall, List.replicate n (.core .pcall) ++ c :: args))
    (proper : ∀ given, m.callTarget c args ≠ .ok (.core .pcall, given)) :
    (∃ reply, (m.within a want (n + 1)).Outcome 0 reply
        (Exec.call c args 0 (m.within a want (n + 1))) ∧
      reply.Follows m (m.callTarget c args) ∧ m.Flagged a want n reply) ↔
    ¬(1 ≤ n ∧ m.checks c args = false ∧
      ∃ fault k, Exec.call c args 0 (m.within a want (n + 1)) = .error fault k) := by
  have h := reach.ordered fun _ _ slips => slips
  obtain ⟨f, rest, frames⟩ : ∃ f rest, m.current.frames = f :: rest := by
    cases frames : m.current.frames with
    | nil => simp [next?, frames] at call
    | cons f rest => exact ⟨f, rest, rfl⟩
  obtain ⟨op, a', b', poises⟩ := h.poises frames
  have same := poises.instruction.symm.trans call
  cases same
  obtain ⟨-, calling, -⟩ := step_chain h poises target
  obtain ⟨reply, layered⟩ := Exec.pcall_chain calling.sane proper n want
  have plain : (m.within a want (n + 1)).Outcome 0 reply
    (Exec.call c args 0 (m.within a want (n + 1))) := layered.plain
  constructor
  · rintro ⟨reply', out', -, flagged⟩ ⟨several, unchecked, fault, k, failed⟩
    rw [failed] at plain out'
    cases plain with
    | raised _ =>
      cases out' with
      | raised _ => exact not_flagged_of_slip h poises target layered several unchecked flagged
  · intro right
    refine ⟨reply, plain, layered.follows, flagged_of_layered h poises target layered ?_⟩
    rintro k fault rfl
    generalize done : Exec.call c args 0 (m.within a want (n + 1)) = r at plain
    cases plain with
    | raised _ =>
      by_cases several : 1 ≤ n
      · cases checked : m.checks c args with
        | true => exact Or.inr rfl
        | false => exact absurd ⟨several, checked, _, _, done⟩ right
      · exact Or.inl (by omega)

/-- A chain of a protected call and a function that refuses its arguments. -/
theorem nested_pcall_flagged_iff_status : ∃ m : Machine, m.Reachable Slips ∧
    m.next? = some (.call, 2, 0) ∧
    m.callTarget (m.top 3) (m.spread 2) = .ok (.core .pcall, [.core .pcall, .core .status]) ∧
    ¬∃ reply, (m.within 2 0 2).Outcome 0 reply (Exec.call (.core .status) [] 0 (m.within 2 0 2)) ∧
      reply.Follows m (m.callTarget (.core .status) []) ∧ m.Flagged 2 0 1 reply := by
  obtain ⟨u, compiled, code, caller, argument⟩ : ∃ u, Compiler.compileSource "return p(p, s)" "test" = .ok u ∧
      u.code = #[Instruction.make .getGlobal 0 0, .make .getGlobal 0 0, .make .getGlobal 1 0, .make .call 2 0,
        .make .ret 1 0, .make .ret 0 0] ∧
      u.constants[0]? = some (Value.string "p") ∧ u.constants[1]? = some (Value.string "s") :=
    Compiler.compileSource_of_any (by decide +kernel)
  have first : u.code[0]? = some (Instruction.make .getGlobal 0 0) := by simp [code]
  have second : u.code[1]? = some (Instruction.make .getGlobal 0 0) := by simp [code]
  have third : u.code[2]? = some (Instruction.make .getGlobal 1 0) := by simp [code]
  have fourth : u.code[3]? = some (Instruction.make .call 2 0) := by simp [code]
  obtain ⟨m, reach, running, -, threads, cells, globals, -⟩ := (((Reachable.start {}).setGlobal "p"
    (.core .pcall)).setGlobal "s" (.core .status)).launch (((Fresh.machine (by decide)).setGlobal _ _).setGlobal
    _ _) compiled []
  have pcall : m.global "p" = .core .pcall := by
    rw [global, globals, ← global, global_setGlobal_ne _ (by decide), global_setGlobal_self _ _ rfl]
  have status : m.global "s" = .core .status := by
    rw [global, globals, ← global, global_setGlobal_self _ _ rfl]
  obtain ⟨m₁, step₁, firm₁, running₁, threads₁, cells₁, globals₁, -⟩ := step_getGlobal running threads
    cells first (Instruction.opcode?_make ..) caller pcall
  obtain ⟨m₂, step₂, firm₂, running₂, threads₂, cells₂, globals₂, -⟩ := step_getGlobal running₁ threads₁
    cells₁ second (Instruction.opcode?_make ..) caller (by rw [global, globals₁, ← global, pcall])
  obtain ⟨m₃, step₃, firm₃, running₃, threads₃, cells₃, -⟩ := step_getGlobal running₂ threads₂ cells₂
    third (Instruction.opcode?_make ..) argument (by rw [global, globals₂, globals₁, ← global, status])
  have reach₃ := ((reach.step firm₁ step₁).step firm₂ step₂).step firm₃ step₃
  have current : m₃.current =
      ⟨#[0, 1, 2, 3], #[], [⟨⟨u, #[]⟩, 3, 0, 0, 0, 0, false⟩], [], 0, 0⟩ := by
    rw [Machine.current, thread, threads₃, running₃]
    rfl
  have call : m₃.next? = some (.call, 2, 0) := next?_ofChunk running₃ threads₃ fourth
  have values : m₃.top 3 = .core .pcall ∧ m₃.spread 2 = [.core .pcall, .core .status] := by
    simp [top, Machine.spread, current, Thread.cell?, Store.cell, cells₃, Value.spread]
  have target : m₃.callTarget (m₃.top 3) (m₃.spread 2) =
      .ok (.core .pcall, List.replicate 1 (Value.core .pcall) ++ Value.core .status :: []) := by
    rw [values.1, values.2]
    rfl
  refine ⟨m₃, reach₃, call, target, ?_⟩
  rw [nested_pcall_flagged_iff reach₃ call target fun given => by simp [callTarget]]
  exact not_not_intro ⟨Nat.le_refl 1, rfl, _, _, rfl⟩

end ScriptEngine.Machine
