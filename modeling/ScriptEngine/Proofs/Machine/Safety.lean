import ScriptEngine.Proofs.Machine.Blindness
import ScriptEngine.Proofs.Machine.Settlement

/-!
# Programs do not go wrong

The faults that stand for an operand or an address out of its range (`Fault.isDefect`) are raised by no
step of a run. Calls and the core functions raise none (`Exec.Clean`), and a legal instruction finds what
it asks for, so only a function of the host can be the origin of one (`Poises.defect`). A run goes on
only in some frame (`Underway.alive`), whose steps are blind to the cells that it stands on
(`Underway.safe`).
-/

set_option linter.dupNamespace false

namespace ScriptEngine

/-- A text that is not a program is refused for what it says. -/
theorem Compiler.compileSource_own {text label : String} {fault : Fault}
    (h : compileSource text label = .error fault) : fault.isDefect = false := by
  unfold compileSource at h
  cases parsed : Parser.parse text with
  | error flaw =>
    rw [parsed] at h
    cases h
    rfl
  | ok body =>
    rw [parsed] at h
    change (compile label body).mapError CompileError.toFault = .error fault at h
    cases compiled : compile label body with
    | ok unit =>
      rw [compiled] at h
      cases h
    | error flaw =>
      rw [compiled] at h
      cases h
      cases flaw <;> rfl

/-- The action raises no defect. -/
def Exec.Clean {α : Type} (x : Exec α) : Prop :=
  ∀ m fault m', x m = .error fault m' → fault.isDefect = false

namespace Exec.Clean

variable {α β : Type}

theorem of_ok {x : Exec α} (h : ∀ m, ∃ a m', x m = .ok a m') : Clean x := by
  intro m fault m' failed
  obtain ⟨a, m'', done⟩ := h m
  rw [done] at failed
  cases failed

theorem bind {x : Exec α} {f : α → Exec β} (first : Clean x) (second : ∀ a, Clean (f a)) :
    Clean (x >>= f) := by
  intro m fault m' failed
  rw [bind_apply] at failed
  cases done : x m with
  | ok a m₁ =>
    rw [done] at failed
    exact second a m₁ fault m' failed
  | error fault₁ m₁ =>
    rw [done] at failed
    cases failed
    exact first m _ _ done

theorem pure (a : α) : Clean (Pure.pure a : Exec α) := of_ok fun _ => ⟨_, _, rfl⟩

theorem gets : Clean (get : Exec Machine) := of_ok fun _ => ⟨_, _, rfl⟩

theorem sets (m : Machine) : Clean (set m : Exec PUnit) := of_ok fun _ => ⟨_, _, rfl⟩

theorem modifies (f : Machine → Machine) : Clean (modify f : Exec PUnit) := of_ok fun _ => ⟨_, _, rfl⟩

theorem throw {fault : Fault} (own : fault.isDefect = false) : Clean (MonadExcept.throw fault : Exec α) := by
  intro m fault' m' failed
  cases failed
  exact own

theorem ofExcept {e : Except Fault α} (own : ∀ fault, e = .error fault → fault.isDefect = false) :
    Clean (Exec.ofExcept e) := by
  intro m fault m' failed
  cases e with
  | ok a => cases failed
  | error fault' =>
    cases failed
    exact own _ rfl

theorem pushResults (want : Nat) (vs : List Value) : Clean (Exec.pushResults want vs) :=
  of_ok fun _ => ⟨_, _, rfl⟩

theorem enter (c : Closure) (args : List Value) (want n : Nat) : Clean (Exec.enter c args want n) := by
  intro m fault m' failed
  rw [enter_apply] at failed
  split at failed
  · cases failed
    rfl
  · cases failed

theorem threadArgument (function : String) (args : List Value) :
    Clean (Exec.threadArgument function args) := by
  unfold Exec.threadArgument
  split
  · exact pure _
  · exact throw rfl

theorem create (args : List Value) (want : Nat) : Clean (Exec.create args want) := by
  refine gets.bind fun m => ?_
  dsimp only
  split
  · exact (sets _).bind fun _ => pushResults _ _
  · exact throw rfl

theorem resume (args : List Value) (want : Nat) : Clean (Exec.resume args want) := by
  refine (threadArgument _ _).bind fun id => gets.bind fun m => ?_
  split
  · exact throw rfl
  split
  · exact throw rfl
  split
  · exact pushResults _ _
  · exact sets _

theorem yield (args : List Value) (want : Nat) : Clean (Exec.yield args want) := by
  refine gets.bind fun m => ?_
  split
  · exact throw rfl
  · exact sets _

theorem dostring (args : List Value) (want : Nat) : Clean (Exec.dostring args want) := by
  unfold Exec.dostring
  split
  · refine bind (ofExcept fun fault failed => ?_) fun unit => enter _ _ _ _
    exact Compiler.compileSource_own failed
  · exact throw rfl

theorem callCoreWith {protectedCall : Exec Unit} (clean : Clean protectedCall) (f : CoreFunction)
    (args : List Value) (want : Nat) : Clean (Exec.callCoreWith protectedCall f args want) := by
  cases f with
  | pcall => exact clean
  | create => exact create args want
  | resume => exact resume args want
  | yield => exact yield args want
  | status => exact (threadArgument _ _).bind fun id => gets.bind fun m => pushResults _ _
  | dostring => exact dostring args want

theorem settle (m : Machine) (caller frames handlers want : Nat) :
    Clean (m.settle caller frames handlers want) := by
  unfold Machine.settle
  extract_lets m₁
  split
  · exact sets _
  split
  · exact sets _
  · refine (sets _).bind fun _ => bind ?_ fun _ => (modifies _).bind fun _ => pushResults _ _
    exact of_ok fun k => ⟨_, _, popSpread_apply 1 k⟩

theorem guarded (want : Nat) {action : Exec Unit} (clean : Clean action) :
    Clean (Exec.guarded want action) :=
  (modifies _).bind fun _ => gets.bind fun _ => clean.bind fun _ => gets.bind fun m => settle m _ _ _ _

/-- Functions of the host raise what they like, but a protected call catches it. -/
theorem pcall (args : List Value) (want : Nat) : Clean (Exec.pcall args want) := by
  fun_induction Exec.pcall args want with
  | case1 want => exact pushResults _ _
  | case2 args want ih => exact guarded want ih
  | case3 callee rest want other =>
    refine gets.bind fun m => ?_
    split
    · exact pushResults _ _
    · refine gets.bind fun _ => ?_
      split
      · exact (modifies _).bind fun _ => enter _ _ _ _
      · exact pushResults _ _
    · refine gets.bind fun k => ?_
      split
      · exact (sets _).bind fun _ => pushResults _ _
      · exact (sets _).bind fun _ => pushResults _ _
    · exact guarded want (callCoreWith (throw rfl) _ _ _)
    · exact pushResults _ _

theorem judge (running frames : Nat) : Clean (Exec.judge running frames) := by
  refine gets.bind fun m => ?_
  split
  · split
    · exact sets _
    · exact (of_ok fun k => ⟨_, _, pop_apply k⟩).bind fun _ => of_ok fun _ => ⟨_, _, rfl⟩
  · exact pure _

end Exec.Clean

theorem Machine.callTarget_own {m : Machine} {callee : Value} {args : List Value} {fault : Fault}
    (h : m.callTarget callee args = .error fault) : fault.isDefect = false := by
  cases callee with
  | table id =>
    simp only [callTarget] at h
    cases found : m.metamethod (.table id) "__call" with
    | error fault' =>
      rw [found] at h
      cases h
      exact metamethod_own found
    | ok handler =>
      rw [found] at h
      cases handler <;> cases h <;> rfl
  | _ => cases h

/-- A call that raises a defect has called a function of the host, which raised it. -/
theorem Exec.call_defect {m m' : Machine} {callee : Value} {args : List Value} {want : Nat}
    {fault : Fault} (failed : call callee args want m = .error fault m') (defect : fault.isDefect = true) :
    ∃ id name given, m.callTarget callee args = .ok (.host id name, given) ∧
      callHost id given m = .error fault m' := by
  simp only [call, bind_apply, get_apply] at failed
  cases target : m.callTarget callee args with
  | error fault' =>
    rw [target] at failed
    cases failed
    rw [Machine.callTarget_own target] at defect
    cases defect
  | ok found =>
    obtain ⟨v, given⟩ := found
    simp only [target, ofExcept_ok] at failed
    have refuted {x : Exec Unit} (clean : Clean x) (raised : x m = .error fault m') : False := by
      rw [clean m fault m' raised] at defect
      cases defect
    cases v with
    | closure id =>
      simp only [bind_apply, get_apply] at failed
      cases found : m.store.closures[id]? with
      | some c =>
        rw [found] at failed
        exact (refuted (Clean.enter c given want 0) failed).elim
      | none =>
        rw [found] at failed
        exact (refuted (Clean.throw rfl) failed).elim
    | host id name =>
      simp only [bind_apply] at failed
      cases done : callHost id given m with
      | ok results m₁ =>
        rw [done] at failed
        cases failed
      | error fault₁ m₁ =>
        rw [done] at failed
        cases failed
        exact ⟨id, name, given, rfl, done⟩
    | core f => exact (refuted (Clean.callCoreWith (Clean.pcall given want) f given want) failed).elim
    | _ => exact (refuted (Clean.throw rfl) failed).elim

namespace Machine

variable {m m' : Machine} {f : Frame} {rest : List Frame} {op : Opcode} {a b : Nat}

/-- The next step calls a function of the host, which raises the fault. -/
def HostRaises (m : Machine) (fault : Fault) : Prop :=
  ∃ callee args want id name given, ∃ f : HostFunction, m.nextCall? = some (callee, args, want) ∧
    m.callTarget callee args = .ok (.host id name, given) ∧ m.hosts[id]? = some f ∧
    ((f.run given).run.run m.store).1 = .error fault

theorem hostRaises_of_callHost {m₁ : Machine} {callee : Value} {args given : List Value}
    {want id : Nat} {name : String} {fault : Fault} (asked : m.nextCall? = some (callee, args, want))
    (target : m.callTarget callee args = .ok (.host id name, given)) (store : m₁.store = m.store)
    (hosts : m₁.hosts = m.hosts) (failed : Exec.callHost id given m₁ = .error fault m') :
    m.HostRaises fault := by
  simp only [Exec.callHost, Exec.bind_apply, Exec.get_apply, hosts] at failed
  cases found : m.hosts[id]? with
  | none =>
    rw [found] at failed
    cases failed
  | some f =>
    rw [found] at failed
    simp only [Exec.onStore_apply, store] at failed
    refine ⟨callee, args, want, id, name, given, f, asked, target, found, ?_⟩
    cases ran : (f.run given).run.run m.store with
    | mk result s =>
      rw [ran] at failed
      cases result with
      | ok vs => cases failed
      | error fault' =>
        cases failed
        rfl

/-- No step raises a defect, unless a function of the host does. -/
theorem Poises.defect (poises : m.Poises f rest op a b) {fault : Fault}
    (failed : Exec.step m = .error fault m') (defect : fault.isDefect = true) : m.HostRaises fault := by
  obtain ⟨captured, d, poised⟩ := poises.poised
  by_cases ret : op = .ret
  · subst ret
    rw [poises.returns rfl] at failed
    simp only [Exec.bind_apply, Exec.popSpread_eq] at failed
    have frames : (m.advance.drop a).current.frames = { f with ip := f.ip + 1 } :: rest := by
      rw [current_drop poised.sane.running_lt]
      exact poised.frames
    rcases Exec.returnFrom_cases frames (m.advance.spread a) with ⟨-, done⟩ | ⟨-, -, done⟩ |
      ⟨-, _, _, -, done⟩ <;> rw [done] at failed <;> cases failed
  · rw [poises.performs ret] at failed
    simp only [Exec.bind_apply] at failed
    have result := performed poised ret
    cases done : Exec.perform f.closure op a b m.advance with
    | ok _ m₁ =>
      rw [done] at failed
      cases failed
    | error fault₁ m₁ =>
      rw [done] at failed
      cases failed
      rw [done] at result
      cases result with
      | raises low high turns own =>
        rw [own] at defect
        cases defect
      | @calls m₂ callee args want r asked turns dropped size closed next called =>
        have same : m₂.store = m.advance.store ∧ m₂.config = m.advance.config := by rw [dropped]; exact ⟨rfl, rfl⟩
        have raised : Exec.call callee args want m₂ = .error fault m' := by
          rcases called with called | ⟨-, called⟩
          · exact called.symm
          · rw [Exec.bind_apply] at called
            cases made : Exec.call callee args want m₂ with
            | ok u m₃ =>
              rw [made] at called
              rw [Exec.Clean.judge _ _ _ _ _ called.symm] at defect
              cases defect
            | error fault₃ m₃ =>
              rw [made] at called
              exact called.symm
        obtain ⟨id, name, given, target, ran⟩ := Exec.call_defect raised defect
        rw [callTarget_congr same.1 same.2] at target
        exact hostRaises_of_callHost (poises.asks.trans asked) target same.1 turns.alone.hosts ran

/-! ## Runs -/

/-- The states between the steps of a run, none of which is barred: a host has a closure called, and
steps follow until one gives the results or raises a fault that no handler catches. -/
inductive Underway (Barred : Machine → Prop) : Machine → Prop where
  | enter {m m' : Machine} {id : Nat} {closure : Closure} {args : List Value}
      (h : Reachable Barred m) (idle : m.waiting = []) (dead : (m.thread 0).frames = [])
      (found : m.store.closures[id]? = some closure)
      (entered : Exec.enter closure args 0 0 (m.modifyThread 0 fun _ => {}) = .ok () m') :
      Underway Barred m'
  | step {m m' : Machine} (h : Underway Barred m) (free : ¬Barred m)
      (step : Exec.step m = .ok none m') : Underway Barred m'
  | caught {m m' m'' : Machine} {fault : Fault} (h : Underway Barred m) (free : ¬Barred m)
      (step : Exec.step m = .error fault m') (caught : m'.unwind (m'.locate fault) = (true, m'')) :
      Underway Barred m''

theorem Underway.reachable {Barred : Machine → Prop} (h : m.Underway Barred) : m.Reachable Barred := by
  induction h with
  | enter h idle dead found entered => exact .enter h idle dead found entered
  | step h free step ih => exact ih.step free step
  | caught h free step caught ih =>
    have reach := ih.fault free step
    rw [caught] at reach
    exact reach

theorem judge_alive (h : m.Sane) (some' : m.current.frames ≠ []) {running frames : Nat}
    (judged : Exec.judge running frames m = .ok () m') : m'.current.frames ≠ [] := by
  obtain ⟨m₁, done, which⟩ := judge_cases h running frames
  rw [done] at judged
  cases judged
  rcases which with ⟨-, rfl⟩ | ⟨-, -, same | ⟨-, top, frames⟩⟩
  · exact some'
  · rw [same]
    exact some'
  · rw [frames]
    exact List.cons_ne_nil _ _

/-- A thread that gets what it waited for goes on in its frames. -/
theorem frames_handOver {id : Nat} (inside : id < m.threads.size) (vs : List Value) (waiting : List Nat) :
    ({ m.deliver id vs with running := id, waiting } : Machine).current.frames = (m.thread id).frames := by
  show ((m.deliver id vs).thread id).frames = _
  rw [thread_deliver_self inside]
  rfl

theorem returnFrom_alive {Runs : Thread → Prop} (h : m.Ordered Runs)
    (frames : m.current.frames = f :: rest) {results : List Value}
    (step : Exec.returnFrom results m = .ok none m') : m'.current.frames ≠ [] := by
  have inside := h.sane.running_lt
  rcases Exec.returnFrom_cases frames results with ⟨below, done⟩ | ⟨-, -, done⟩ |
    ⟨-, resumer, others, waiting, done⟩ <;> rw [done] at step <;> cases step
  · rw [current_pushResults (by simpa using inside), current_modifyCurrent inside]
    exact below
  · -- the resumer waited in some frame
    have mem : resumer ∈ m.waiting := waiting ▸ List.mem_cons_self
    have other : resumer ≠ m.running := fun same => (List.nodup_cons.1 h.sane.distinct).1 (same ▸ mem)
    rw [frames_handOver (by simpa using h.sane.bound resumer (List.mem_cons_of_mem _ mem)),
      thread_modifyCurrent_ne other]
    exact h.alive resumer mem

/-- Unless it gives the program's results, a step leaves a frame to go on with. -/
theorem Ordered.step_alive (h : m.Ordered Thread.Active) (poises : m.Poises f rest op a b)
    (step : Exec.step m = .ok none m') : m'.current.frames ≠ [] := by
  obtain ⟨captured, d, poised⟩ := poises.poised
  by_cases ret : op = .ret
  · subst ret
    rw [poises.returns rfl] at step
    simp only [Exec.bind_apply, Exec.popSpread_eq] at step
    have turns := Turns.drop poised.sane a
    have ordered : (m.advance.drop a).Ordered fun _ => True := (advance_ordered h).turns turns trivial
    have frames : (m.advance.drop a).current.frames = { f with ip := f.ip + 1 } :: rest := by
      rw [turns.thread]
      exact poised.frames
    exact returnFrom_alive ordered frames step
  · rw [poises.performs ret] at step
    simp only [Exec.bind_apply] at step
    have result := performed poised ret
    cases done : Exec.perform f.closure op a b m.advance with
    | error fault₁ m₁ =>
      rw [done] at step
      cases step
    | ok _ m₁ =>
      rw [done] at step
      cases step
      rw [done] at result
      cases result with
      | stays turns size closed list next =>
        rw [turns.thread]
        exact List.cons_ne_nil _ _
      | @calls m₂ callee args want r asked turns same size closed next called =>
        rw [poises.thread] at turns
        have calling : m₂.Ordered (Thread.Calling want) :=
          (advance_ordered h).turns turns (poises.calls h.current.1 size closed next)
        obtain ⟨reply, out, -⟩ := Exec.call_outcome calling.sane callee args want
        rcases called with called | ⟨-, called⟩
        · rw [← called] at out
          exact out.alive calling
        · rw [Exec.bind_apply] at called
          cases made : Exec.call callee args want m₂ with
          | ok u m₃ =>
            rw [made] at called out
            exact judge_alive (calling.outcome_ok out).sane (out.alive calling) called.symm
          | error fault₃ m₃ =>
            rw [made] at called
            cases called

/-- A handler that catches a fault goes back to some frame. -/
theorem unwindFrom_alive (fault : Fault) {id : Nat} {waiting : List Nat}
    (h : ({ m with running := id, waiting } : Machine).Ordered Thread.Recoverable)
    (caught : m.unwindFrom fault id waiting = (true, m')) : m'.current.frames ≠ [] := by
  have back {k : Machine} (h : k.Ordered Thread.Recoverable) {handler : Handler} {outer : List Handler}
      (handlers : k.current.handlers = handler :: outer) :
      (k.catchWith handler outer fault).current.frames ≠ [] := by
    obtain ⟨f, rest, frames, -⟩ := h.current.restored handlers
    rw [current_catchWith h.sane.running_lt]
    show (k.current.restore handler).frames ≠ []
    rw [frames]
    exact List.cons_ne_nil _ _
  induction waiting generalizing m id with
  | nil =>
    unfold unwindFrom at caught
    cases handlers : (m.thread id).handlers with
    | cons handler outer =>
      rw [handlers] at caught
      cases caught
      exact back h handlers
    | nil =>
      rw [handlers] at caught
      cases caught
  | cons resumer rest ih =>
    unfold unwindFrom at caught
    cases handlers : (m.thread id).handlers with
    | cons handler outer =>
      rw [handlers] at caught
      cases caught
      exact back h handlers
    | nil =>
      rw [handlers] at caught
      exact ih (m := m.modifyThread id fun _ => {})
        ((h.dies (Thread.blocked_of_dead rfl rfl rfl)).passOn rfl) caught

/-- A run goes on in some frame. -/
theorem Underway.alive {Barred : Machine → Prop}
    (slips : ∀ m : Machine, m.Ordered Thread.Active → m.Slips → Barred m) (h : m.Underway Barred) :
    m.current.frames ≠ [] := by
  induction h with
  | enter h idle dead found entered =>
    rw [Exec.enter_apply] at entered
    split at entered
    · cases entered
    · cases entered
      have inside := (h.ordered slips).sane.running_lt
      rw [push_eq_pushResults, current_pushResults (by simpa using inside),
        current_modifyCurrent (by simpa using inside)]
      exact List.cons_ne_nil _ _
  | step h free step ih =>
    have ordered := h.reachable.ordered slips
    obtain ⟨f, rest, frames⟩ := List.exists_cons_of_ne_nil ih
    obtain ⟨op, a, b, poises⟩ := ordered.poises frames
    exact ordered.step_alive poises step
  | caught h free step caught ih =>
    have ordered := h.reachable.ordered slips
    exact unwindFrom_alive _ (error_ordered ordered (fun slip => free (slips _ ordered slip)) step) caught

/-- Programs do not go wrong: in every run in which the protected call is never applied to itself, each
step is one of some frame, which stands at an instruction and has its operands above its base; the step
raises no defect, unless a function of the host that it calls raises one; and whatever cells there are
below the base, the step is the same, so that it neither reads nor pops, overwrites or captures any of
them. -/
theorem Underway.safe (h : m.Underway Doubles) :
    ∃ f rest op a b, m.current.frames = f :: rest ∧ m.next? = some (op, a, b) ∧
      f.base + op.touched a b ≤ m.current.stack.size ∧
      (∀ fault m', Exec.step m = .error fault m' → fault.isDefect = true → m.HostRaises fault) ∧
      ∀ (cells : Array Nat) (enough : f.base ≤ cells.size),
        let g : Ground := ⟨m.running, rest.length, m.current.handlers.length, f.base, cells, enough⟩
        Exec.step (m.onto g) = g.result (Exec.step m) := by
  have slips (k : Machine) (ordered : k.Ordered Thread.Active) (slip : k.Slips) := slip.doubles ordered
  have ordered := h.reachable.ordered slips
  obtain ⟨f, rest, frames⟩ := List.exists_cons_of_ne_nil (h.alive slips)
  obtain ⟨op, a, b, poises⟩ := ordered.poises frames
  obtain ⟨captured, d, poised⟩ := poises.poised
  have touched := poised.touched_le
  rw [poises.thread] at touched
  refine ⟨f, rest, op, a, b, frames, poises.instruction, touched, fun fault m' => poises.defect, ?_⟩
  intro cells enough g
  refine poises.step_onto (g := g) ⟨rfl, ordered.sane.running_lt, ?_, ?_, Nat.le_refl _⟩ rfl rfl
  · have := poises.base_le
    show f.base ≤ m.current.stack.size
    omega
  · show rest.length ≤ m.current.frames.length
    rw [frames]
    exact Nat.le_succ _

/-- A chunk that is about to make a table. -/
theorem Underway.safe_newTable : ∃ m : Machine, m.Underway Doubles ∧ m.next? = some (.newTable, 0, 0) ∧
    ∃ f rest op a b, m.current.frames = f :: rest ∧ m.next? = some (op, a, b) ∧
      f.base + op.touched a b ≤ m.current.stack.size ∧
      (∀ fault m', Exec.step m = .error fault m' → fault.isDefect = true → m.HostRaises fault) ∧
      ∀ (cells : Array Nat) (enough : f.base ≤ cells.size),
        let g : Ground := ⟨m.running, rest.length, m.current.handlers.length, f.base, cells, enough⟩
        Exec.step (m.onto g) = g.result (Exec.step m) := by
  obtain ⟨u, compiled, code⟩ : ∃ u, Compiler.compileSource "local t = {} return t" "test" = .ok u ∧
      u.code[0]? = some (Instruction.make .newTable 0 0) := Compiler.compileSource_of_any (by decide +kernel)
  have opcode : (Instruction.make .newTable 0 0).opcode? = some .newTable := Instruction.opcode?_make ..
  obtain ⟨m, underway, frames⟩ : ∃ m : Machine, m.Underway Doubles ∧
      m.current.frames = [⟨⟨u, #[]⟩, 0, 0, 0, 0, 0, false⟩] :=
    ⟨_, @Underway.enter _ _ _ 0 _ [] ((Reachable.start {}).chunk compiled) rfl rfl rfl rfl, rfl⟩
  refine ⟨m, underway, ?_, underway.safe⟩
  simp [next?, frames, code, opcode]
  decide

end Machine

end ScriptEngine
