import ScriptEngine.Proofs.Machine.Instruction

/-!
# Machines in order

A machine is `Ordered` if every thread but the running one waits for something that would leave it in
order, and the running one is in the state that the moment calls for: `Active` between steps, `Calling`
when an instruction has taken its operands for a call, `Recoverable` when a fault is under way. A step
goes from the first to the first or to the last (`step_ordered`), unwinding goes back to the first
(`unwind_ordered`).

The one thing that spoils the order is a fault that several protected calls of one instruction have not
heard of: `Slips`.
-/

set_option linter.dupNamespace false

namespace ScriptEngine

/-- An instruction of the innermost frame waits for `want` results. -/
def Thread.Calling (want : Nat) (t : Thread) : Prop :=
  t.awaitingProtections = 0 ∧ t.frames ≠ [] ∧
    Pends t.frames t.handlers t.stack.size t.captures.size want 0

/-- The innermost frame is about to be left. -/
def Thread.Returning (t : Thread) : Prop :=
  t.awaitingProtections = 0 ∧ ∃ f rest, t.frames = f :: rest ∧
    Pends rest t.handlers f.base f.captureBase f.want f.protections ∧
    f.base ≤ t.stack.size ∧ f.captureBase ≤ t.captures.size

/-- The handlers belong to outer frames, so a fault can go to them. -/
def Thread.Recoverable (t : Thread) : Prop :=
  ∃ k stack captures want n, Pends (t.frames.drop k) t.handlers stack captures want n ∧
    stack ≤ t.stack.size ∧ captures ≤ t.captures.size

/-- Every thread is in order, and the running one is as `Runs` says. -/
structure Machine.Ordered (Runs : Thread → Prop) (m : Machine) : Prop where
  sane : m.Sane
  current : Runs m.current
  others : ∀ id, id < m.threads.size → id ≠ m.running → (m.thread id).Blocked
  alive : ∀ id ∈ m.waiting, (m.thread id).frames ≠ []

/-- The next step raises a fault inside more than one protected call, none of which knows of the
others. -/
def Machine.Slips (m : Machine) : Prop :=
  ∃ fault m', Exec.step m = .error fault m' ∧
    m.current.handlers.length + 2 ≤ m'.current.handlers.length

/-- The next step applies the protected call to itself. -/
def Machine.Doubles (m : Machine) : Prop :=
  ∃ callee args want rest, m.nextCall? = some (callee, args, want) ∧
    m.callTarget callee args = .ok (.core .pcall, .core .pcall :: rest)

/-! ## Threads -/

/-- A call for which nothing is protected comes to be protected by a group. -/
theorem Pends.guard {frames : List Frame} {handlers hs : List Handler} {stack captures want n : Nat}
    (h : Pends frames handlers stack captures want 0) (some' : frames ≠ [])
    (group : Group n want frames.length stack captures hs) :
    Pends frames (hs ++ handlers) stack captures want n := by
  cases h with
  | idle => exact absurd rfl some'
  | @call f rest hs₀ hs' _ _ _ _ awaits group₀ below =>
    have none' : hs₀ = [] := List.eq_nil_of_length_eq_zero group₀.length
    rw [none', List.nil_append]
    exact .call awaits group below

namespace Thread

variable {t : Thread}

theorem blocked_of_dead (frames : t.frames = []) (handlers : t.handlers = [])
    (none' : t.awaitingProtections = 0) : t.Blocked := by
  unfold Blocked
  rw [frames, handlers, none']
  exact .idle _ _ _

/-- A coroutine that has not run yet waits for its arguments. -/
theorem blocked_ofClosure {c : Closure} (fits : c.Fits) : (Thread.ofClosure c).Blocked := by
  refine .plain ⟨Nat.zero_le _, Nat.zero_le _, ?_⟩ (.idle ..)
  simpa [slots, ofClosure] using
    Frame.Rests.enter fits 0 0

theorem Blocked.recoverable (h : t.Blocked) : t.Recoverable :=
  ⟨0, _, _, _, _, h, Nat.le_refl _, Nat.le_refl _⟩

/-- What a thread waited for lets it go on. -/
theorem Blocked.receive (h : t.Blocked) (alive : t.frames ≠ []) (cell : Nat) :
    (t.receive cell).Active ∧ (t.receive cell).frames = t.frames := by
  refine ⟨⟨rfl, ?_⟩, rfl⟩
  unfold Blocked at h
  cases frames : t.frames with
  | nil => exact absurd frames alive
  | cons f rest =>
    rw [frames] at h
    simpa [Thread.receive, Thread.withCells, frames] using Pends.receive h

theorem Calling.receive {want : Nat} (h : t.Calling want) (cell : Nat) :
    (t.withCells cell (slots want)).Active := by
  obtain ⟨none', some', pends⟩ := h
  refine ⟨none', ?_⟩
  cases frames : t.frames with
  | nil => exact absurd frames some'
  | cons f rest =>
    rw [frames] at pends
    simpa [Thread.withCells, frames] using Pends.receive pends

theorem Calling.entered {want n cell : Nat} {c : Closure} {hs : List Handler} (h : t.Calling want)
    (fits : c.Fits) (guards : t.Guards want n hs) : (t.entered c cell want n hs).Active := by
  refine ⟨h.1, ?_, ?_⟩
  · simpa [Thread.entered] using Frame.Rests.enter fits _ _
  · exact h.2.2.guard h.2.1 guards

theorem Calling.blocks {want n : Nat} {hs : List Handler} (h : t.Calling want)
    (guards : t.Guards want n hs) :
    Blocked { t with awaiting := want, awaitingProtections := t.awaitingProtections + n,
                     handlers := hs ++ t.handlers } := by
  have pends := h.2.2.guard h.2.1 guards
  rw [Blocked]
  simpa [h.1] using pends

theorem Calling.raises {want n : Nat} {hs : List Handler} (h : t.Calling want)
    (guards : t.Guards want n hs) : Recoverable { t with handlers := hs ++ t.handlers } :=
  ⟨0, _, _, _, _, h.2.2.guard h.2.1 guards, Nat.le_refl _, Nat.le_refl _⟩

/-- A fault can be handled by the frames below the innermost one. -/
theorem Active.recoverable_below {f : Frame} {rest : List Frame} (h : t.Active)
    (frames : t.frames = f :: rest) (t' : Thread) (frames' : t'.frames.drop 1 = rest)
    (handlers : t'.handlers = t.handlers) (stack : f.base ≤ t'.stack.size)
    (captures : f.captureBase ≤ t'.captures.size) : t'.Recoverable := by
  have upright := h.2
  simp only [frames] at upright
  refine ⟨1, f.base, f.captureBase, f.want, f.protections, ?_, stack, captures⟩
  rw [frames', handlers]
  exact upright.below

/-- The innermost handler noted a state in which a frame waits for results. -/
theorem Recoverable.restored {h : Handler} {outer : List Handler} (recoverable : t.Recoverable)
    (handlers : t.handlers = h :: outer) :
    ∃ f rest, (t.restore h).frames = f :: rest ∧ h.stack ≤ t.stack.size ∧
      h.captures ≤ t.captures.size ∧ Upright f rest (outer.drop h.wraps)
        (h.stack + slots (((outer.take h.wraps).getLast?).getD h).want) h.captures := by
  obtain ⟨k, stack, captures, want, n, pends, stackLe, capturesLe⟩ := recoverable
  rw [handlers] at pends
  obtain ⟨f, rest, suffix, length, stackLe', capturesLe', upright⟩ := pends.caught
  refine ⟨f, rest, ?_, by omega, by omega, upright⟩
  have total := congrArg List.length suffix
  have positive : 0 < h.frames := length ▸ Nat.succ_pos _
  show t.frames.drop (t.frames.length - h.frames) = f :: rest
  rw [suffix, List.drop_drop]
  rw [List.length_drop, List.length_drop, length] at total
  rw [List.length_drop]
  congr 1
  omega

/-- The innermost handler takes a fault: the state that it noted comes back, and then the results. -/
theorem Recoverable.caught {h : Handler} {outer : List Handler} (recoverable : t.Recoverable)
    (handlers : t.handlers = h :: outer) (cell : Nat) :
    ({ t.restore h with handlers := outer.drop h.wraps, awaitingProtections := 0 }.withCells cell
      (slots (((outer.take h.wraps).getLast?).getD h).want)).Active := by
  obtain ⟨f, rest, frames, stack, captures, upright⟩ := recoverable.restored handlers
  have stackSize : (t.restore h).stack.size = h.stack := by
    simp only [restore, Array.size_shrink]
    omega
  have capturesSize : (t.restore h).captures.size = h.captures := by
    simp only [restore, Array.size_shrink]
    omega
  refine ⟨rfl, ?_⟩
  simp only [Thread.withCells, frames, Array.size_append, stackSize, capturesSize, Array.size_range']
  exact upright

end Thread

/-! ## Returns -/

/-- What the frame gives to its caller for the results of its function. -/
def Frame.pays (f : Frame) (results : List Value) : List Value :=
  List.replicate f.protections (Value.boolean true) ++
    if f.isCondition then [.boolean (results.headD .nil).isTruthy] else results

/-- The thread without the frame, on top of the others. -/
def Frame.leave (f : Frame) (rest : List Frame) (t : Thread) : Thread :=
  { t with
    frames := rest
    stack := t.stack.shrink f.base
    captures := t.captures.shrink f.captureBase
    handlers := t.handlers.drop f.protections }

/-- A return goes to the frame below, ends the program, or ends a coroutine. -/
theorem Exec.returnFrom_cases {m : Machine} {f : Frame} {rest : List Frame}
    (frames : m.current.frames = f :: rest) (results : List Value) :
    (rest ≠ [] ∧ returnFrom results m =
        .ok none ((m.modifyCurrent (f.leave rest)).pushResults f.want (f.pays results))) ∨
      (rest = [] ∧ m.waiting = [] ∧
        returnFrom results m = .ok (some (f.pays results)) (m.modifyCurrent (f.leave rest))) ∨
      rest = [] ∧ ∃ resumer others, m.waiting = resumer :: others ∧ returnFrom results m =
        .ok none { (m.modifyCurrent (f.leave rest)).deliver resumer
          (.boolean true :: f.pays results) with running := resumer, waiting := others } := by
  simp only [returnFrom, bind_apply, get_apply, frames]
  cases rest with
  | cons g rest =>
    left
    exact ⟨by simp, rfl⟩
  | nil =>
    right
    cases waiting : m.waiting with
    | nil =>
      refine Or.inl ⟨rfl, rfl, ?_⟩
      simp only [Machine.waiting_modifyCurrent, waiting]
      rfl
    | cons resumer others =>
      refine Or.inr ⟨rfl, resumer, others, rfl, ?_⟩
      simp only [Machine.waiting_modifyCurrent, waiting]
      rw [← Machine.deliver_control]
      rfl

/-! ## Calls -/

namespace Machine

variable {m m' : Machine} {want n : Nat}

/-- The threads that run and wait after control has been handed over. -/
theorem Switch.sound {id : Nat} {rest : List Nat} (rooted : m.Rooted)
    (alive : ∀ k ∈ m.waiting, (m.thread k).frames ≠ []) (h : m.Switch id rest) :
    (m.thread id).frames ≠ [] ∧ (∀ k ∈ id :: rest, k < m.threads.size) ∧ (id :: rest).Nodup ∧
      (id :: rest).getLast? = some 0 ∧ ∀ k ∈ rest, k = m.running ∨ k ∈ m.waiting := by
  cases h with
  | resume suspended inside alive' =>
    refine ⟨alive', ?_, List.nodup_cons.2 ⟨suspended, rooted.distinct⟩, rooted.bottom,
      fun k mem => List.mem_cons.1 mem⟩
    intro k mem
    rcases List.mem_cons.1 mem with rfl | mem
    · exact inside
    · exact rooted.bound k mem
  | yield resumer =>
    have distinct := (List.nodup_cons.1 rooted.distinct).2
    have bottom := rooted.bottom
    rw [resumer] at distinct bottom
    refine ⟨alive id (by simp [resumer]), fun k mem => ?_, distinct, bottom, fun k mem => ?_⟩
    · exact rooted.bound k (List.mem_cons_of_mem _ (resumer ▸ mem))
    · exact Or.inr (resumer ▸ List.mem_cons_of_mem _ mem)

/-- The handler of a single protected call knows of all there are. -/
theorem Raised.guards (raised : m.Raised m' want n) (few : n ≤ 1) :
    ∃ hs, m.current.Guards want n hs ∧
      m'.current = { m.current with handlers := hs ++ m.current.handlers } := by
  obtain ⟨hs, length, noted, last, thread⟩ := raised.thread
  refine ⟨hs, ⟨length, fun g mem => ?_, fun g head => ?_, last⟩, thread⟩
  · exact ⟨(noted g mem).1, (noted g mem).2.1, (noted g mem).2.2.1⟩
  · have mem := List.mem_of_head? head
    have := List.length_pos_of_mem mem
    rw [(noted g mem).2.2.2]
    omega

namespace Ordered

variable {Runs Runs' : Thread → Prop}

/-- Only the running thread has changed. -/
theorem alone (h : m.Ordered Runs) (alone : m.Alone m') (current : Runs' m'.current) :
    m'.Ordered Runs' where
  sane := h.sane.alone alone
  current := current
  others id inside other := by
    rw [alone.running] at other
    by_cases old : id < m.threads.size
    · rw [alone.others id old other]
      exact h.others id old other
    · obtain ⟨c, fits, made⟩ := alone.made id (by omega) inside
      rw [made]
      exact Thread.blocked_ofClosure fits
  alive id mem := by
    rw [alone.waiting] at mem
    have old := h.sane.bound id (List.mem_cons_of_mem _ mem)
    have other : id ≠ m.running := by
      rintro rfl
      exact (List.nodup_cons.1 h.sane.distinct).1 mem
    rw [alone.others id old other]
    exact h.alive id mem

theorem turns {t : Thread} (h : m.Ordered Runs) (turns : m.Turns m' t) (current : Runs' t) :
    m'.Ordered Runs' :=
  h.alone turns.alone (turns.thread ▸ current)

/-- Control has gone to another thread, which has got what it waited for. -/
theorem handed (h : m.Ordered Runs) (switch : m.Switch m'.running m'.waiting)
    (hosts : m'.hosts = m.hosts) (size : m'.threads.size = m.threads.size)
    (closures : m'.store.closures = m.store.closures) {cell : Nat}
    (target : m'.thread m'.running = (m.thread m'.running).receive cell)
    (caller : (m'.thread m.running).Blocked)
    (stillAlive : m.running ∈ m'.waiting → (m'.thread m.running).frames ≠ [])
    (others : ∀ id, id ≠ m.running → id ≠ m'.running → m'.thread id = m.thread id) :
    m'.Ordered Thread.Active := by
  obtain ⟨targetAlive, bound, distinct, bottom, which⟩ := switch.sound h.sane.rooted h.alive
  have other := switch.ne h.sane.distinct
  refine ⟨⟨?_, ?_, ?_, distinct, bottom⟩, ?_, ?_, ?_⟩
  · rw [closures]
    exact h.sane.closures
  · rw [hosts]
    exact h.sane.hosts
  · rw [size]
    exact bound
  · rw [Machine.current, target]
    exact ((h.others _ (bound _ List.mem_cons_self) other).receive targetAlive cell).1
  · intro id inside away
    rw [size] at inside
    by_cases itself : id = m.running
    · rw [itself]
      exact caller
    · rw [others id itself away]
      exact h.others id inside itself
  · intro id mem
    by_cases itself : id = m.running
    · rw [itself] at mem ⊢
      exact stillAlive mem
    · have away : id ≠ m'.running := by
        rintro rfl
        exact (List.nodup_cons.1 distinct).1 mem
      rw [others id itself away]
      exact h.alive id ((which id mem).resolve_left itself)

theorem switched {id : Nat} {vs : List Value} (h : m.Ordered (Thread.Calling want))
    (switched : m.Switched m' want n id vs) : m'.Ordered Thread.Active := by
  obtain ⟨hs, guards, caller⟩ := switched.caller
  refine h.handed switched.switch switched.hosts switched.size ?_ switched.target ?_ ?_ switched.others
  · rw [switched.store, store_deliver]
    rfl
  · rw [caller]
    exact h.current.blocks guards
  · intro
    rw [caller]
    exact h.current.2.1

/-- A call that goes on leaves the machine in order. -/
theorem outcome_ok {reply : Reply} {u : Unit} (h : m.Ordered (Thread.Calling want))
    (out : m.Outcome want reply (.ok u m')) : m'.Ordered Thread.Active := by
  cases out with
  | @values m' vs alone same =>
    have sane := h.sane.alone alone
    refine h.alone (.trans h.sane alone (.pushResults sane want vs)) ?_
    rw [current_pushResults sane.running_lt, same]
    exact h.current.receive _
  | entered entered =>
    obtain ⟨cell, hs, -, guards, thread⟩ := entered.thread
    exact h.alone entered.alone (thread ▸ h.current.entered entered.fits guards)
  | blocked switched => exact h.switched switched

/-- A call that raised a fault does so unless the fault slipped. -/
theorem outcome_error {reply : Reply} {fault : Fault} (h : m.Ordered (Thread.Calling want))
    (out : m.Outcome want reply (.error fault m')) (few : reply.layers ≤ 1) :
    m'.Ordered Thread.Recoverable := by
  cases out with
  | raised raised =>
    obtain ⟨hs, guards, thread⟩ := raised.guards few
    exact h.alone raised.alone (thread ▸ h.current.raises guards)

/-- Judging a comparison keeps the order. -/
theorem judge (h : m.Ordered Thread.Active) (running frames : Nat) :
    ∃ m', Exec.judge running frames m = .ok () m' ∧ m'.Ordered Thread.Active := by
  simp only [Exec.judge, Exec.bind_apply, Exec.get_apply]
  by_cases same : m.running = running
  · simp only [if_pos same]
    by_cases entered : frames < m.current.frames.length
    · simp only [if_pos entered, Exec.set_apply]
      refine ⟨_, rfl, h.turns ((Turns.refl h.sane).modify h.sane _) ?_⟩
      obtain ⟨none', upright⟩ := h.current
      unfold Thread.modifyFrame
      cases frames : m.current.frames with
      | nil => exact h.current
      | cons f rest =>
        rw [frames] at upright
        exact ⟨none', upright.rests, upright.below⟩
    · simp only [if_neg entered, Exec.bind_apply, Exec.pop_apply, Exec.push_apply]
      refine ⟨_, rfl, h.turns ((Turns.drop h.sane 1).push h.sane _) ?_⟩
      obtain ⟨none', upright⟩ := h.current
      refine ⟨none', ?_⟩
      cases frames : m.current.frames with
      | nil =>
        rw [frames] at upright
        exact upright
      | cons f rest =>
        rw [frames] at upright
        have := upright.rests.base_lt
        have size : ((m.current.stack.take (m.current.stack.size - 1)).push
            (m.drop 1).store.cells.size).size = m.current.stack.size := by
          simp only [Array.size_push, Array.size_extract]
          omega
        simp only [size]
        exact upright
  · simp only [if_neg same]
    exact ⟨m, rfl, h⟩

/-- The running thread gives way for good to the one that resumed it. -/
theorem handOver {resumer : Nat} {rest : List Nat} (h : m.Ordered Thread.Blocked)
    (waiting : m.waiting = resumer :: rest) (vs : List Value) :
    ({ m.deliver resumer vs with running := resumer, waiting := rest } : Machine).Ordered
      Thread.Active := by
  have switch : m.Switch resumer rest := .yield waiting
  have other := switch.ne h.sane.distinct
  have inside : resumer < m.threads.size :=
    h.sane.bound _ (List.mem_cons_of_mem _ (by simp [waiting]))
  refine h.handed switch (by simp) (by simp) ?_ (thread_deliver_self inside) ?_ ?_
    fun id _ away => thread_deliver_ne away
  · show (m.deliver resumer vs).store.closures = _
    rw [store_deliver]
    rfl
  · show ((m.deliver resumer vs).thread m.running).Blocked
    rw [thread_deliver_ne (Ne.symm other)]
    exact h.current
  · intro mem
    have distinct := h.sane.distinct
    rw [waiting] at distinct
    exact absurd (List.mem_cons_of_mem _ mem) (List.nodup_cons.1 distinct).1

/-- Leaving a frame keeps the order. -/
theorem returnFrom (h : m.Ordered Thread.Returning) (results : List Value) :
    ∃ r m', Exec.returnFrom results m = .ok r m' ∧ m'.Ordered Thread.Active := by
  obtain ⟨none', f, rest, frames, pends, stack, captures⟩ := h.current
  have left : m.Turns (m.modifyCurrent (f.leave rest)) (f.leave rest m.current) :=
    (Turns.refl h.sane).modify h.sane _
  have sane := h.sane.alone left.alone
  rcases Exec.returnFrom_cases frames results with ⟨below, done⟩ | ⟨rfl, waiting, done⟩ |
    ⟨rfl, resumer, others, waiting, done⟩
  · refine ⟨_, _, done, h.alone (.trans h.sane left.alone (.pushResults sane _ _)) ?_⟩
    rw [current_pushResults sane.running_lt, left.thread]
    refine ⟨none', ?_⟩
    have stackSize : (m.current.stack.shrink f.base).size = f.base := by
      simp only [Array.size_shrink]
      omega
    have capturesSize : (m.current.captures.shrink f.captureBase).size = f.captureBase := by
      simp only [Array.size_shrink]
      omega
    cases rest with
    | nil => exact absurd rfl below
    | cons g rest =>
      simp only [Thread.withCells, Frame.leave, Array.size_append, stackSize, capturesSize,
        Array.size_range']
      exact pends.receive
  · obtain ⟨handlers, -⟩ := pends.handlers_of_nil
    refine ⟨_, _, done, h.turns left ⟨none', ?_⟩⟩
    simp [Frame.leave, handlers]
  · -- a coroutine that has ended waits for nothing
    obtain ⟨handlers, -⟩ := pends.handlers_of_nil
    have ended : (m.modifyCurrent (f.leave [])).Ordered Thread.Blocked :=
      h.turns left (Thread.blocked_of_dead rfl (by simp [Frame.leave, handlers]) none')
    exact ⟨_, _, done, ended.handOver waiting _⟩

end Ordered

/-- A call that goes on leaves a frame to go on with. -/
theorem Outcome.alive {reply : Reply} {u : Unit} (h : m.Ordered (Thread.Calling want))
    (out : m.Outcome want reply (.ok u m')) : m'.current.frames ≠ [] := by
  obtain ⟨-, some', -⟩ := h.current
  cases out with
  | values alone same =>
    rw [current_pushResults (h.sane.alone alone).running_lt, same]
    exact some'
  | entered entered =>
    obtain ⟨cell, hs, -, -, thread⟩ := entered.thread
    rw [thread]
    exact List.cons_ne_nil _ _
  | blocked switched =>
    obtain ⟨alive, -⟩ := switched.switch.sound h.sane.rooted h.alive
    show (m'.thread m'.running).frames ≠ []
    rw [switched.target]
    exact alive

end Machine

end ScriptEngine
