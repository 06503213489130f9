import ScriptEngine.Proofs.Machine.Lexical

/-!
# Steps carry locals along
-/

set_option linter.dupNamespace false

namespace ScriptEngine.Machine

variable {m m' m'' : Machine} {d : Deeds} {f : Frame} {rest : List Frame} {op : Opcode} {a b : Nat}

/-- No deeds at all. -/
def Deeds.none : Deeds := ⟨fun _ => False, fun _ => False, fun _ => False⟩

theorem Poises.holds (poises : m.Poises f rest op a b) : f.closure.unit.Holds f.ip op a b := by
  have instruction := poises.instruction
  simp only [next?, poises.frames, List.head?_cons, Option.bind_eq_bind, Option.bind_some,
    Option.bind_eq_some_iff] at instruction
  obtain ⟨ins, code, op', opcode, same⟩ := instruction
  cases same
  exact ⟨ins, code, opcode, rfl, rfl⟩

theorem Poises.touched_le (poises : m.Poises f rest op a b) : f.base + op.touched a b ≤ m.current.stack.size := by
  obtain ⟨captured, d, poised⟩ := poises.poised
  have touched := poised.touched_le
  rwa [poises.thread] at touched

/-- The instruction that closes over slots leaves them where they are. -/
theorem closeVars_stack (inside : m.running < m.threads.size) {c : Closure}
    (done : Exec.perform c .closeVars a b m = .ok () m') : m'.current.stack = m.current.stack := by
  simp only [Exec.perform, Exec.closeVars, Exec.bind_apply, Exec.get_apply] at done
  split at done
  · cases done
  · cases done
    rw [current_modifyCurrent inside]

/-- An instruction that goes on by itself. -/
theorem Poises.stays_carries (poises : m.Poises f rest op a b) (draws : Draws d m m') (alone : m.Alone m')
    {pushed captures : Array Nat} {ip : Nat}
    (thread : m'.current = { m.current with
      stack := m.current.stack.take (m.current.stack.size - op.touched a b) ++ pushed
      captures
      frames := { f with ip } :: rest })
    (size : (pushed.size : Int) = op.touched a b + Instruction.stackEffect op a b)
    (closed : (captures.size : Int) = m.current.captures.size + Instruction.closedEffect op a)
    (list : captures = op.closing a m.current.stack m.current.captures)
    (next : (ip = f.ip + 1 ∧ op.continues = true) ∨ (ip = a ∧ op.isJump = true))
    (whole : op = .closeVars → m'.current.stack = m.current.stack) : Carries d m m' := by
  have touched := poises.touched_le
  have total : ((m.current.stack.take (m.current.stack.size - op.touched a b) ++ pushed).size : Int) =
      m.current.stack.size + Instruction.stackEffect op a b := by
    simp only [Array.size_append, Array.size_extract]
    omega
  refine .of_alone draws alone ?_
  rw [thread] at whole ⊢
  refine .advance poises.frames poises.holds poises.upright.rests (Verifier.mem_successors.2 (next.imp And.symm And.symm))
    touched (fun i low => ?_) whole ?_ (Int.le_of_eq total) list closed
    (poises.next ip _ _ next total closed).captureBase_le rfl
  · rw [Array.getElem?_append_left (by simp only [Array.size_extract]; omega), Array.getElem?_extract,
      if_pos (by omega), Nat.zero_add]
  · simp only [Array.size_append, Array.size_extract]
    omega

/-- The operands of a call are taken away. -/
theorem Poises.asks_current (poises : m.Poises f rest op a b) (h : m.Ordered Thread.Active) {want : Nat}
    (size : (slots want : Int) = op.touched a b + Instruction.stackEffect op a b)
    (closed : Instruction.closedEffect op a = 0) (next : op.continues = true) :
    m.current.Carries (m.advance.drop (op.touched a b)).current := by
  have touched := poises.touched_le
  have turns := Turns.drop (advance_ordered h).sane (op.touched a b)
  rw [poises.thread] at turns
  rw [turns.thread]
  refine .advance poises.frames poises.holds poises.upright.rests (Verifier.mem_successors.2 (Or.inl ⟨next, rfl⟩))
    touched (fun i low => ?_) (fun closes => ?_) ?_ ?_ (Opcode.closing_eq closed _ _).symm (by rw [closed, Int.add_zero])
    poises.upright.rests.captureBase_le rfl
  · simp only [Array.getElem?_extract]
    rw [if_pos (by omega), Nat.zero_add]
  · subst closes
    simp only [Instruction.closedEffect] at closed
    simp only [Opcode.touched, Opcode.operands, Instruction.stackEffect] at size
    have := slots_pos want
    omega
  · simp only [Array.size_extract]
    omega
  · simp only [Array.size_extract]
    omega

theorem Ordered.asks_alone (h : m.Ordered Thread.Active) (n : Nat) : m.Alone (m.advance.drop n) :=
  (Alone.modifyCurrent h.sane _).trans h.sane (Turns.drop (advance_ordered h).sane n).alone

theorem Separate.asks (separate : m.Separate) (n : Nat) : Draws d m (m.advance.drop n) :=
  have advanced : Draws d m m.advance := Exec.modifyFrame_draws separate _ fun _ => rfl
  advanced.trans (advanced.separate.drop n)

theorem judge_draws (separate : m.Separate) (id n : Nat) : Draws d m (Exec.final (Exec.judge id n m)) := by
  simp only [Exec.judge, Exec.bind_apply, Exec.get_apply]
  split
  · split
    · exact Exec.modifyFrame_draws separate _ fun _ => rfl
    · exact Exec.pop_draws separate fun separate => separate.push _
  · exact separate.refl d

/-- An instruction other than a return carries locals along, and closes over no more than it says. -/
theorem Ordered.perform_carries (h : m.Ordered Thread.Active) (separate : m.Separate)
    (poises : m.Poises f rest op a b) (other : op ≠ .ret) {u : Unit}
    (done : Exec.perform f.closure op a b m.advance = .ok u m') :
    ∃ d, Carries d m m' ∧ ∀ x, d.binds x → (m.deeds op a).binds x := by
  obtain ⟨captured, depths, poised⟩ := poises.poised
  have advanced := (Alone.modifyCurrent h.sane (·.modifyFrame fun f => { f with ip := f.ip + 1 }) : m.Alone m.advance)
  have thread := poises.thread
  have result := performed poised other
  simp only at result
  rw [done] at result
  generalize same : EStateM.Result.ok u m' = r at result
  cases result with
  | raises => cases same
  | @stays k pushed captures ip turns size closed list next =>
    cases same
    rw [thread] at turns closed list
    have draws := poises.step_draws separate
    rw [poises.performs other, Exec.bind_apply, done] at draws
    refine ⟨_, poises.stays_carries draws (advanced.trans h.sane turns.alone) turns.thread size closed list next ?_,
      fun _ => id⟩
    rintro rfl
    have kept := closeVars_stack poised.sane.running_lt done
    rwa [thread] at kept
  | @calls m₁ callee args want r asked turns dropped size closed next called =>
    subst dropped
    have sane := poised.sane.alone turns.alone
    have taken : Carries .none m (m.advance.drop (op.touched a b)) :=
      .of_alone (separate.asks _) (h.asks_alone _) (poises.asks_current h size closed next)
    refine ⟨.none, taken.trans separate ?_, fun x => False.elim⟩
    have separate := taken.draws.separate
    obtain ⟨reply, out, -⟩ := Exec.call_outcome sane callee args want
    have calls := Exec.call_draws separate callee args want (d := .none)
    rcases called with rfl | ⟨rfl, rfl⟩
    · rw [← same] at out calls
      exact .of_threads calls fun id => (out.answered sane id).carries
    · rw [Exec.bind_apply] at same
      cases made : Exec.call callee args 1 (m.advance.drop (op.touched a b)) with
      | error fault m₂ =>
        rw [made] at same
        cases same
      | ok u₂ m₂ =>
        rw [made] at same out calls
        have separate₂ : m₂.Separate := calls.separate
        have judged := judge_draws separate₂ m.advance.running (rest.length + 1) (d := .none)
        simp only at same
        rw [← same] at judged
        refine .of_threads (calls.trans judged) fun id => (out.judged sane ?_ same.symm id).carries
        rw [turns.thread, thread]
        simp

/-- A return carries the locals of the frames below along. -/
theorem Ordered.return_carries (h : m.Ordered Thread.Active) (separate : m.Separate)
    (poises : m.Poises f rest .ret a b) {r : Option (List Value)} (step : Exec.step m = .ok r m') :
    Carries d m m' := by
  have dropped : Draws d m (m.advance.drop a) := separate.asks a
  have turns := Turns.drop (advance_ordered h).sane a
  rw [poises.thread] at turns
  have frames : (m.advance.drop a).current.frames = { f with ip := f.ip + 1 } :: rest := by rw [turns.thread]
  have left := dropped.trans (dropped.separate.leave frames)
  have alone := h.asks_alone a
  have inside := (h.sane.alone alone).running_lt
  have sane := h.sane.alone alone
  have alone := alone.trans h.sane (.modifyCurrent sane (Frame.leave { f with ip := f.ip + 1 } rest))
  have sane := h.sane.alone alone
  have carries : Carries d m ((m.advance.drop a).modifyCurrent (Frame.leave { f with ip := f.ip + 1 } rest)) := by
    refine .of_alone left alone ?_
    have touched := poises.touched_le
    simp only [Opcode.touched, Opcode.operands] at touched
    have same : ((m.advance.drop a).modifyCurrent (Frame.leave { f with ip := f.ip + 1 } rest)).current =
        Frame.leave { f with ip := f.ip + 1 } rest m.current := by
      rw [current_modifyCurrent inside, turns.thread]
      have low : f.base ≤ m.current.stack.size - a := by omega
      simp [Frame.leave, Nat.min_eq_left low]
    rw [same]
    exact .leave poises.frames
  rw [poises.returns rfl] at step
  simp only [Exec.bind_apply, Exec.popSpread_eq] at step
  rcases Exec.returnFrom_cases frames (m.advance.spread a) with ⟨-, done⟩ | ⟨-, -, done⟩ |
    ⟨-, resumer, others, waiting, done⟩ <;> rw [done] at step <;> cases step
  · exact carries.trans separate (.pushResultsOn left.separate sane.running_lt _ _)
  · exact carries
  · have waits : resumer ∈ (m.advance.drop a).waiting := by
      rw [waiting]
      exact List.mem_cons_self
    have inside := sane.bound resumer (List.mem_cons_of_mem _ waits)
    have given := Carries.deliver left.separate inside (.boolean true :: ({ f with ip := f.ip + 1 } : Frame).pays
      (m.advance.spread a)) (d := d)
    exact (carries.trans separate given).trans separate (.withControl given.draws.separate resumer others)

/-! ## Faults -/

/-- A fault is under way: nothing but the running thread has changed, nothing has been closed over, and whichever
handler gets the fault restores what is carried along. -/
structure Falls (d : Deeds) (m m' : Machine) : Prop where
  draws : Draws d m m'
  binds : ∀ x, ¬d.binds x
  alone : m.Alone m'
  salvages : m.current.Salvages m'.current

/-- Closing over slots does not fail. -/
theorem Poises.ne_closeVars (poises : m.Poises f rest op a b) {fault : Fault}
    (failed : Exec.perform f.closure op a b m.advance = .error fault m') : op ≠ .closeVars := by
  rintro rfl
  obtain ⟨captured, depths, poised⟩ := poises.poised
  have touched := poised.touched_le
  simp only [Opcode.touched, Opcode.operands] at touched
  simp only [Exec.perform, Exec.closeVars, Exec.bind_apply, Exec.get_apply,
    if_neg (show ¬m.advance.current.stack.size < a by omega), Exec.modify_apply] at failed
  cases failed

/-- What a step salvages if its call raises a fault. -/
theorem Raised.salvages {want n : Nat} {t : Thread} (raised : m.Raised m' want n) (few : n ≤ 1)
    (calling : m.current.Calling want) (carries : t.Carries m.current) : t.Salvages m'.current := by
  obtain ⟨hs, guards, thread⟩ := raised.guards few
  rw [thread]
  exact carries.salvages (calling.2.2.guard calling.2.1 guards)

/-- A step that raises a fault. -/
theorem Ordered.falls (h : m.Ordered Thread.Active) (free : ¬m.Doubles) (separate : m.Separate) {fault : Fault}
    (step : Exec.step m = .error fault m') : ∃ d, Falls d m m' := by
  cases frames : m.current.frames with
  | nil =>
    have handlers := h.current.2
    rw [frames] at handlers
    simp only [Exec.step, Exec.bind_apply, Exec.get_apply, frames, Exec.throw_apply] at step
    cases step
    refine ⟨.none, separate.refl _, fun _ => id, .refl h.sane, fun handler outer same => ?_⟩
    rw [handlers] at same
    cases same
  | cons f rest =>
    obtain ⟨op, a, b, poises⟩ := h.poises frames
    by_cases ret : op = .ret
    · subst ret
      obtain ⟨r, m₁, done, -⟩ := h.returns poises
      rw [done] at step
      cases step
    have advanced := (Alone.modifyCurrent h.sane (·.modifyFrame fun f => { f with ip := f.ip + 1 }) : m.Alone m.advance)
    have draws := poises.step_draws separate
    rw [step] at draws
    rw [poises.performs ret] at step
    have failed : Exec.perform f.closure op a b m.advance = .error fault m' := by
      rw [Exec.bind_apply] at step
      cases done : Exec.perform f.closure op a b m.advance with
      | ok u m₁ =>
        rw [done] at step
        cases step
      | error fault' m₁ =>
        rw [done] at step
        cases step
        rfl
    have binds (x : Nat) (bound : (m.deeds op a).binds x) : False := poises.ne_closeVars failed bound.1
    obtain ⟨captured, depths, poised⟩ := poises.poised
    have sane := poised.sane
    have thread := poises.thread
    have result := performed poised ret
    rw [failed] at result
    generalize same : EStateM.Result.error fault m' = r at result
    cases result with
    | stays => cases same
    | raises low high turns own =>
      cases same
      rw [thread] at turns low high
      refine ⟨_, draws, binds, advanced.trans h.sane turns.alone, ?_⟩
      rw [turns.thread]
      have touched := poises.touched_le
      simp only at low high
      exact .raised frames poises.upright (by omega) high
    | @calls m₁ callee args want r asked turns dropped size closed next called =>
      subst dropped
      have current := poises.asks_current h size closed next
      rw [thread] at turns
      have calling : (m.advance.drop (op.touched a b)).Ordered (Thread.Calling want) :=
        (advance_ordered h).turns turns (poises.calls h.current.1 size closed next)
      obtain ⟨reply, out, few, -⟩ := Exec.call_outcome calling.sane callee args want
      have single : reply.layers ≤ 1 := few fun given target =>
        free ⟨callee, args, want, given, poises.asks.trans asked, target⟩
      have failed : Exec.call callee args want (m.advance.drop (op.touched a b)) = .error fault m' := by
        rcases called with rfl | ⟨rfl, rfl⟩
        · exact same.symm
        · rw [Exec.bind_apply] at same
          cases made : Exec.call callee args 1 (m.advance.drop (op.touched a b)) with
          | error fault' m₂ =>
            rw [made] at same
            cases same
            rfl
          | ok u m₂ =>
            rw [made] at same out
            obtain ⟨m₃, judged, -⟩ := judge_cases (calling.outcome_ok out).sane m.advance.running (rest.length + 1)
            simp only [judged] at same
            cases same
      rw [failed] at out
      cases out with
      | raised raised =>
        exact ⟨_, draws, binds, (h.asks_alone _).trans h.sane raised.alone,
          raised.salvages single calling.current current⟩

/-- A thread that waits salvages what it has. -/
theorem Blocked.salvages {t : Thread} (h : t.Blocked) : t.Salvages t :=
  (Thread.Carries.refl t).salvages h

/-- A handler catches a fault. -/
theorem catchWith_carries {n : Machine} {handler : Handler} {outer : List Handler} (separate : m.Separate)
    (draws : Draws d m n) (inside : n.running < n.threads.size)
    (others : ∀ k, k ≠ n.running → (m.thread k).Carries (n.thread k))
    (salvages : (m.thread n.running).Salvages n.current) (handlers : n.current.handlers = handler :: outer)
    (fault : Fault) : Carries d m (n.catchWith handler outer fault) := by
  have back : Carries d m (n.modifyCurrent fun t =>
      { t.restore handler with handlers := outer.drop handler.wraps, awaitingProtections := 0 }) := by
    refine .of_threads (draws.trans (draws.separate.restore handler _)) fun k => ?_
    by_cases itself : k = n.running
    · subst itself
      rw [show (n.modifyCurrent _).thread n.running = (n.modifyCurrent _).current from rfl, current_modifyCurrent inside]
      exact salvages.carries handlers _
    · rw [thread_modifyCurrent_ne itself]
      exact others k itself
  exact back.trans separate (.pushResultsOn back.draws.separate (by simpa using inside) _ _)

/-- Threads die until one has a handler. -/
theorem unwindFrom_carries {n : Machine} (separate : m.Separate) (fault : Fault) {id : Nat} {waiting : List Nat}
    (draws : Draws d m n) (inside : ∀ k ∈ id :: waiting, k < n.threads.size)
    (others : ∀ k, k ≠ id → (m.thread k).Carries (n.thread k))
    (salvages : ∀ k ∈ id :: waiting, (m.thread k).Salvages (n.thread k)) :
    Carries d m (n.unwindFrom fault id waiting).2 := by
  have caught {n : Machine} {id : Nat} {waiting : List Nat} (draws : Draws d m n) (inside : id < n.threads.size)
      (others : ∀ k, k ≠ id → (m.thread k).Carries (n.thread k)) (salvages : (m.thread id).Salvages (n.thread id))
      {handler : Handler} {outer : List Handler} (handlers : (n.thread id).handlers = handler :: outer) :
      Carries d m (({ n with running := id, waiting } : Machine).catchWith handler outer fault) :=
    catchWith_carries separate (draws.trans (draws.separate.withControl id waiting)) inside others salvages handlers fault
  have dies {n : Machine} {id : Nat} (draws : Draws d m n) : Draws d m (n.modifyThread id fun _ => {}) :=
    draws.trans (draws.separate.modifyThread_same id (fun i x slot => by simp at slot) (by simp) (by simp))
  have died {n : Machine} {id : Nat} (inside : id < n.threads.size)
      (others : ∀ k, k ≠ id → (m.thread k).Carries (n.thread k)) (k : Nat) :
      (m.thread k).Carries ((n.modifyThread id fun _ => {}).thread k) := by
    by_cases itself : k = id
    · subst itself
      rw [thread_modifyThread_self inside]
      exact .dies _
    · rw [thread_modifyThread_ne itself]
      exact others k itself
  induction waiting generalizing n id with
  | nil =>
    unfold unwindFrom
    cases handlers : (n.thread id).handlers with
    | cons handler outer => exact caught draws (inside id (by simp)) others (salvages id (by simp)) handlers
    | nil =>
      have dead : Draws d m (n.modifyThread id fun _ => {}) := dies draws
      exact .of_threads (dead.trans (dead.separate.withControl id [])) (died (inside id (by simp)) others)
  | cons resumer rest ih =>
    unfold unwindFrom
    cases handlers : (n.thread id).handlers with
    | cons handler outer => exact caught draws (inside id (by simp)) others (salvages id (by simp)) handlers
    | nil =>
      have here := inside id (by simp)
      refine ih (dies draws) (fun k mem => ?_) (fun k _ => died here others k) fun k mem => ?_
      · rw [size_modifyThread]
        exact inside k (List.mem_cons_of_mem _ mem)
      · by_cases itself : k = id
        · subst itself
          rw [thread_modifyThread_self here]
          exact fun _ _ handlers => by cases handlers
        · rw [thread_modifyThread_ne itself]
          exact salvages k (List.mem_cons_of_mem _ mem)

/-- Unwinding carries along what a fault has left. -/
theorem Falls.unwound (h : m.Ordered Thread.Active) (separate : m.Separate) (falls : Falls d m m') (fault : Fault) :
    Carries d m (m'.unwind fault).2 := by
  have alone := falls.alone
  have sane := h.sane.alone alone
  refine unwindFrom_carries separate fault falls.draws sane.bound (fun k away => ?_) fun k mem => ?_
  · exact (alone.elsewhere (alone.running ▸ away)).carries
  · rw [alone.running, alone.waiting] at mem
    by_cases itself : k = m.running
    · subst itself
      have here : m'.thread m.running = m'.current := by rw [← alone.running]; rfl
      rw [here]
      exact falls.salvages
    · have inside := h.sane.bound k mem
      rw [alone.others k inside itself]
      exact Blocked.salvages (h.others k inside itself)

/-! ## Moves -/

/-- A move carries locals along. -/
theorem Ordered.moves_carries (h : m.Ordered Thread.Active) (free : ¬m.Doubles) (separate : m.Separate)
    (moves : m.Moves m') : ∃ d, Carries d m m' ∧ ∀ x, d.binds x → m.nextDeeds.binds x := by
  cases moves with
  | fault step =>
    obtain ⟨d, falls⟩ := h.falls free separate step
    exact ⟨d, falls.unwound h separate _, fun x bound => absurd bound (falls.binds x)⟩
  | @step _ r step =>
    cases frames : m.current.frames with
    | nil =>
      simp only [Exec.step, Exec.bind_apply, Exec.get_apply, frames, Exec.throw_apply] at step
      cases step
    | cons f rest =>
      obtain ⟨op, a, b, poises⟩ := h.poises frames
      by_cases ret : op = .ret
      · subst ret
        exact ⟨.none, h.return_carries separate poises step, fun x => False.elim⟩
      · rw [poises.performs ret, Exec.bind_apply] at step
        simp only [nextDeeds, poises.instruction]
        cases done : Exec.perform f.closure op a b m.advance with
        | error fault m₁ =>
          rw [done] at step
          cases step
        | ok u m₁ =>
          rw [done] at step
          cases step
          exact h.perform_carries separate poises ret done

/-! ## Everything that happens -/

/-- Unless the machine moves, the host has done something that carries locals along. -/
theorem Happens.moves_or_carries (h : m.Ordered Thread.Active) (separate : m.Separate)
    (discreet : ∀ f ∈ m'.hosts, f.Discreet) (next : m.Happens Doubles m') :
    (¬m.Doubles ∧ m.Moves m') ∨ Carries .none m m' := by
  rcases next.moves_or_draws separate discreet with moves | draws
  · exact Or.inl moves
  cases next with
  | register | setGlobal | chunk | takeOutput => exact Or.inr (.of_threads (draws _) fun _ => .refl _)
  | host called =>
    refine Or.inr (.of_threads (draws _) fun id => ?_)
    have same : m'.thread id = m.thread id := by rw [thread, threads_callHost called, thread]
    rw [same]
    exact .refl _
  | @enter _ k closure args idle dead known entered =>
    have program : m.running = 0 := by simpa [idle] using h.sane.bottom
    have cleared : m.Alone (m.modifyCurrent fun _ => {}) := .modifyCurrent h.sane _
    have clears : Carries .none m (m.modifyCurrent fun _ => {}) := by
      refine .of_alone ?_ cleared ?_
      · exact separate.modifyThread_same _ (fun i x slot => by simp at slot) (by simp) (by simp)
      · rw [current_modifyCurrent h.sane.running_lt]
        exact .dies _
    have same : m.modifyThread 0 (fun _ => {}) = m.modifyCurrent fun _ => {} := by rw [modifyCurrent, program]
    rw [same] at entered
    refine Or.inr (clears.trans separate ?_)
    have ran := Exec.enter_known clears.draws.separate (d := .none) known args 0 0
    have made := Exec.enter_cases (h.sane.alone cleared) closure args 0 0
    rw [entered] at made ran
    obtain ⟨-, ⟨⟩⟩ | ⟨-, m₁, same, alone, -, thread⟩ := made
    cases same
    refine .of_alone ran alone (Thread.Answered.carries ?_)
    rw [thread]
    exact .entered _ _ rfl (.refl _) ⟨rfl, rfl, rfl⟩ rfl (by simp [Thread.entered]) fun i low => by
      simp [Thread.entered, Array.getElem?_push_lt, low]
  | move free moves => exact Or.inl ⟨free, moves⟩

end ScriptEngine.Machine
