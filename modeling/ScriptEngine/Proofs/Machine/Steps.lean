import ScriptEngine.Proofs.Machine.Order

/-!
# Steps keep the order

A step moves the innermost frame's address on and performs its instruction, which is legal where it
stands (`step_poised`). From what instructions and calls do, a step leaves the machine in order
(`step_ordered`), and so does unwinding after a fault (`unwind_ordered`). Only the protected call of the
protected call can slip (`Slips.doubles`).
-/

set_option linter.dupNamespace false

namespace ScriptEngine

/-- Where a frame rests its next instruction is legal, and the frame rests wherever the instruction
leaves it, with the effects that are recorded for it. -/
theorem Frame.Rests.next {f : Frame} {stack captures : Nat} (h : f.Rests stack captures) :
    ∃ captured d ins op, f.closure.unit.code[f.ip]? = some ins ∧ ins.opcode? = some op ∧
      Legal f.closure.unit f.closure.upvalues.size captured op ins.a.toNat ins.b.toNat d ∧
      (∀ c ∈ f.closure.unit.children, Layout (captured c.id) c) ∧
      (stack : Int) = f.base + d.depth ∧
      (captures : Int) = f.captureBase + f.closure.upvalues.size + d.closed ∧
      ∀ (ip stack' captures' : Nat),
        (ip = f.ip + 1 ∧ op.continues = true) ∨ (ip = ins.a.toNat ∧ op.isJump = true) →
        (stack' : Int) = stack + Instruction.stackEffect op ins.a.toNat ins.b.toNat →
        (captures' : Int) = captures + Instruction.closedEffect op ins.a.toNat →
        Frame.Rests { f with ip } stack' captures' := by
  obtain ⟨record, captured, d, recorded, here, depth, closed⟩ := h
  obtain ⟨ins, op, code, opcode, legal, successors⟩ := recorded.legal _ _ here
  refine ⟨captured, d, ins, op, code, opcode, legal, recorded.nested, depth, closed, ?_⟩
  intro ip stack' captures' next stack'_eq captures'_eq
  have mem : ip ∈ Verifier.successors op ins.a.toNat f.ip :=
    Verifier.mem_successors.2 (next.imp And.symm And.symm)
  refine ⟨record, captured, _, recorded, successors ip mem, ?_, ?_⟩
  · simp only [Depths.after]
    omega
  · simp only [Depths.after]
    omega

namespace Machine

variable {m m' : Machine}

/-- The machine whose innermost frame has gone past its instruction. -/
def advance (m : Machine) : Machine :=
  m.modifyCurrent (·.modifyFrame fun f => { f with ip := f.ip + 1 })

theorem current_advance (inside : m.running < m.threads.size) {f : Frame} {rest : List Frame}
    (frames : m.current.frames = f :: rest) :
    m.advance.current = { m.current with frames := { f with ip := f.ip + 1 } :: rest } := by
  rw [advance, current_modifyCurrent inside]
  simp only [Thread.modifyFrame, frames]

/-- Going on to the next address moves no slot. -/
theorem top_advance (h : m.running < m.threads.size) (n : Nat) : m.advance.top n = m.top n := by
  have stack : m.advance.current.stack = m.current.stack := by
    rw [advance, current_modifyCurrent h]
    unfold Thread.modifyFrame
    split <;> rfl
  simp only [top, Thread.cell?, stack]
  rfl

/-- The call that an instruction makes does not depend on frames. -/
theorem request?_advance (h : m.running < m.threads.size) (op : Opcode) (a b : Nat) :
    m.advance.request? op a b = m.request? op a b := by
  have stack : m.advance.current.stack = m.current.stack := by
    rw [advance, current_modifyCurrent h]
    unfold Thread.modifyFrame
    split <;> rfl
  have spread (n : Nat) : m.advance.spread n = m.spread n := by
    simp only [spread, stack]
    rfl
  have handler? (event : String) (lhs rhs : Value) :
      m.advance.handler? event lhs rhs = m.handler? event lhs rhs := rfl
  simp only [request?, top_advance h, spread, handler?]

/-- A step of a machine in order: its instruction, and what was promised for it. -/
structure Poises (m : Machine) (f : Frame) (rest : List Frame) (op : Opcode) (a b : Nat) : Prop where
  poised : ∃ captured d, Poised m.advance { f with ip := f.ip + 1 } rest captured d op a b
  frames : m.current.frames = f :: rest
  upright : Upright f rest m.current.handlers m.current.stack.size m.current.captures.size
  thread : m.advance.current = { m.current with frames := { f with ip := f.ip + 1 } :: rest }
  instruction : m.next? = some (op, a, b)
  asks : m.nextCall? = m.advance.request? op a b
  next : ∀ (ip stack captures : Nat),
    (ip = f.ip + 1 ∧ op.continues = true) ∨ (ip = a ∧ op.isJump = true) →
    (stack : Int) = m.current.stack.size + Instruction.stackEffect op a b →
    (captures : Int) = m.current.captures.size + Instruction.closedEffect op a →
    Frame.Rests { f with ip } stack captures
  returns : op = .ret →
    Exec.step m = (do let results ← Exec.popSpread a; Exec.returnFrom results) m.advance
  performs : op ≠ .ret → Exec.step m = (do Exec.perform f.closure op a b; pure none) m.advance

/-- A step moves the innermost frame's address on and performs the instruction that it was at. -/
theorem step_eq {f : Frame} {rest : List Frame} (frames : m.current.frames = f :: rest) {op : Opcode}
    {a b : Nat} (instruction : m.next? = some (op, a, b)) :
    (op = .ret → Exec.step m = (do let results ← Exec.popSpread a; Exec.returnFrom results) m.advance) ∧
      (op ≠ .ret → Exec.step m = (do Exec.perform f.closure op a b; pure none) m.advance) := by
  have advanced : m.modifyCurrent (·.modifyFrame ({ · with ip := f.ip + 1 })) = m.advance := by
    apply modifyThread_congr
    have : (m.thread m.running).frames = f :: rest := frames
    simp only [Thread.modifyFrame, this]
  simp only [next?, frames, List.head?_cons, Option.bind_eq_bind, Option.bind_some,
    Option.bind_eq_some_iff] at instruction
  obtain ⟨ins, code, op', opcode, same⟩ := instruction
  cases same
  constructor
  · rintro rfl
    simp only [Exec.step, Exec.bind_apply, Exec.get_apply, frames, Exec.set_apply, code, opcode, advanced]
  · intro other
    simp only [Exec.step, Exec.bind_apply, Exec.get_apply, frames, Exec.set_apply, code, opcode, advanced]

theorem advance_ordered (h : m.Ordered Thread.Active) :
    m.advance.Ordered fun t => t = m.advance.current :=
  h.alone (.modifyCurrent h.sane _) rfl

theorem Ordered.poises (h : m.Ordered Thread.Active) {f : Frame} {rest : List Frame}
    (frames : m.current.frames = f :: rest) : ∃ op a b, m.Poises f rest op a b := by
  have upright := h.current.2
  simp only [frames] at upright
  obtain ⟨captured, d, ins, op, code, opcode, legal, nested, stack, captures, next⟩ := upright.rests.next
  have thread : m.advance.current =
      { m.current with frames := { f with ip := f.ip + 1 } :: rest } :=
    current_advance h.sane.running_lt frames
  have instruction : m.next? = some (op, ins.a.toNat, ins.b.toNat) := by
    simp only [next?, frames, code, opcode, List.head?_cons, Option.bind_eq_bind, Option.bind_some]
  obtain ⟨returns, performs⟩ := step_eq frames instruction
  refine ⟨op, ins.a.toNat, ins.b.toNat, ⟨captured, d, ?_⟩, frames, upright, thread, instruction, ?_, next,
    returns, performs⟩
  · refine ⟨h.sane.alone (.modifyCurrent h.sane _), ?_, legal, nested, ?_, ?_⟩
    · rw [thread]
    · rw [thread]
      exact stack
    · rw [thread]
      exact captures
  · rw [request?_advance h.sane.running_lt, nextCall?, instruction]
    rfl

namespace Poises

variable {f : Frame} {rest : List Frame} {op : Opcode} {a b : Nat}

/-- Enough of the stack is left for the frame below when the operands are gone. -/
theorem base_le (poises : m.Poises f rest op a b) :
    f.base ≤ m.current.stack.size - op.touched a b ∧ f.captureBase ≤ m.current.captures.size := by
  obtain ⟨captured, d, poised⟩ := poises.poised
  have touched := poised.touched_le
  rw [poises.thread] at touched
  have captures := poises.upright.rests.captureBase_le
  simp only at touched
  omega

theorem stays (poises : m.Poises f rest op a b) (none' : m.current.awaitingProtections = 0)
    {pushed captures : Array Nat} {ip : Nat}
    (size : (pushed.size : Int) = op.touched a b + Instruction.stackEffect op a b)
    (closed : (captures.size : Int) = m.current.captures.size + Instruction.closedEffect op a)
    (next : (ip = f.ip + 1 ∧ op.continues = true) ∨ (ip = a ∧ op.isJump = true)) :
    Thread.Active { m.current with
      stack := m.current.stack.take (m.current.stack.size - op.touched a b) ++ pushed
      captures
      frames := { f with ip } :: rest } := by
  obtain ⟨captured, d, poised⟩ := poises.poised
  have touched := poised.touched_le
  rw [poises.thread] at touched
  refine ⟨none', poises.next ip _ _ next ?_ closed, poises.upright.below⟩
  simp only [Array.size_append, Array.size_extract] at touched ⊢
  omega

theorem calls (poises : m.Poises f rest op a b) (none' : m.current.awaitingProtections = 0)
    {want : Nat} (size : (slots want : Int) = op.touched a b + Instruction.stackEffect op a b)
    (closed : Instruction.closedEffect op a = 0) (next : op.continues = true) :
    Thread.Calling want { m.current with
      stack := m.current.stack.take (m.current.stack.size - op.touched a b)
      frames := { f with ip := f.ip + 1 } :: rest } := by
  obtain ⟨captured, d, poised⟩ := poises.poised
  have touched := poised.touched_le
  obtain ⟨base, captureBase⟩ := poises.base_le
  rw [poises.thread] at touched
  refine ⟨none', by simp, .plain ⟨?_, captureBase, ?_⟩ poises.upright.below⟩
  · simp only [Array.size_extract]
    omega
  · refine poises.next _ _ _ (Or.inl ⟨rfl, next⟩) ?_ (by rw [closed, Int.add_zero])
    simp only [Array.size_extract] at touched ⊢
    omega

end Poises

/-- The handlers of the protected calls are still there after a fault. -/
theorem Outcome.handlers_of_error {want : Nat} {reply : Reply} {fault : Fault}
    (h : m.Outcome want reply (.error fault m')) :
    m'.current.handlers.length = m.current.handlers.length + reply.layers := by
  cases h with
  | raised raised =>
    obtain ⟨hs, length, -, -, thread⟩ := raised.thread
    rw [thread, List.length_append, length, Nat.add_comm]
    rfl

/-- A fault has come from `m` to `m'`: the machine is in order unless the fault slipped, which it can
only if `Doubled`. -/
structure Fails (m m' : Machine) (Doubled : Prop) : Prop where
  ordered : m'.current.handlers.length ≤ m.current.handlers.length + 1 →
    m'.Ordered Thread.Recoverable
  doubled : m.current.handlers.length + 2 ≤ m'.current.handlers.length → Doubled

/-- A fault that adds no handler. -/
theorem Fails.of_same {Doubled : Prop} (ordered : m'.Ordered Thread.Recoverable)
    (same : m'.current.handlers = m.current.handlers) : m.Fails m' Doubled :=
  ⟨fun _ => ordered, fun more => by rw [same] at more; omega⟩

/-- A call keeps the machine in order, unless a fault slips. -/
theorem Ordered.call {want : Nat} (h : m.Ordered (Thread.Calling want)) (callee : Value)
    (args : List Value) :
    match Exec.call callee args want m with
    | .ok _ m' => m'.Ordered Thread.Active
    | .error _ m' => m.Fails m'
        (∃ rest, m.callTarget callee args = .ok (.core .pcall, .core .pcall :: rest)) := by
  obtain ⟨reply, out, few, -⟩ := Exec.call_outcome h.sane callee args want
  generalize Exec.call callee args want m = r at out
  cases r with
  | ok _ m' => exact h.outcome_ok out
  | error fault m' =>
    have handlers := out.handlers_of_error
    refine ⟨fun once => h.outcome_error out (by omega), fun more => ?_⟩
    apply Classical.byContradiction
    intro none'
    have := few fun rest target => none' ⟨rest, target⟩
    omega

/-- An instruction other than a return leaves the machine in order, unless a fault slips. -/
theorem Ordered.perform (h : m.Ordered Thread.Active) {f : Frame} {rest : List Frame} {op : Opcode}
    {a b : Nat} (poises : m.Poises f rest op a b) (other : op ≠ .ret) :
    match Exec.perform f.closure op a b m.advance with
    | .ok _ m' => m'.Ordered Thread.Active
    | .error _ m' => m.Fails m' m.Doubles := by
  obtain ⟨captured, d, poised⟩ := poises.poised
  have ordered := advance_ordered h
  have none' := h.current.1
  have thread := poises.thread
  have result := performed poised other
  generalize Exec.perform f.closure op a b m.advance = r at result
  cases result with
  | stays turns size closed list next =>
    rw [thread] at turns closed
    exact ordered.turns turns (poises.stays none' size closed next)
  | raises low high turns _ =>
    rw [thread] at turns low high
    obtain ⟨base, captureBase⟩ := poises.base_le
    refine .of_same (ordered.turns turns
      (h.current.recoverable_below poises.frames _ rfl rfl ?_ captureBase)) (by rw [turns.thread])
    simp only [Array.size_extract] at low high ⊢
    omega
  | @calls m₁ callee args want r asked turns dropped size closed next called =>
    have same : m₁.store = m.advance.store ∧ m₁.config = m.advance.config := by rw [dropped]; exact ⟨rfl, rfl⟩
    rw [thread] at turns
    have calling : m₁.Ordered (Thread.Calling want) :=
      ordered.turns turns (poises.calls none' size closed next)
    have handlers : m₁.current.handlers = m.current.handlers := by rw [turns.thread]
    have after := calling.call callee args
    rw [callTarget_congr same.1 same.2] at after
    have failed {m₂ : Machine} (fails : m₁.Fails m₂ (∃ rest, m.advance.callTarget callee args =
        .ok (.core .pcall, .core .pcall :: rest))) : m.Fails m₂ m.Doubles := by
      obtain ⟨ordered, doubled⟩ := fails
      rw [handlers] at ordered doubled
      refine ⟨ordered, fun more => ?_⟩
      obtain ⟨rest, target⟩ := doubled more
      exact ⟨callee, args, want, rest, poises.asks.trans asked, target⟩
    rcases called with rfl | ⟨-, rfl⟩
    · cases done : Exec.call callee args want m₁ with
      | ok _ m₂ =>
        rw [done] at after
        exact after
      | error fault m₂ =>
        rw [done] at after
        exact failed after
    · simp only [Exec.bind_apply]
      cases done : Exec.call callee args want m₁ with
      | ok _ m₂ =>
        rw [done] at after
        obtain ⟨m₃, judged, ordered⟩ := after.judge m.advance.running (rest.length + 1)
        simp only [judged]
        exact ordered
      | error fault m₂ =>
        rw [done] at after
        exact failed after

/-- A return keeps the machine in order. -/
theorem Ordered.returns (h : m.Ordered Thread.Active) {f : Frame} {rest : List Frame} {a b : Nat}
    (poises : m.Poises f rest .ret a b) :
    ∃ r m', Exec.step m = .ok r m' ∧ m'.Ordered Thread.Active := by
  have ordered := advance_ordered h
  have turns := Turns.drop ordered.sane a
  rw [poises.thread] at turns
  obtain ⟨base, captureBase⟩ := poises.base_le
  have returning : (m.advance.drop a).Ordered Thread.Returning := by
    refine ordered.turns turns ⟨h.current.1, _, rest, rfl, poises.upright.below, ?_, captureBase⟩
    simp only [Opcode.touched, Opcode.operands, Array.size_extract] at base ⊢
    omega
  rw [poises.returns rfl]
  simp only [Exec.bind_apply, Exec.popSpread_eq]
  exact returning.returnFrom _

/-- A step leaves the machine in order, unless it raises a fault that slips. -/
theorem Ordered.step (h : m.Ordered Thread.Active) :
    match Exec.step m with
    | .ok _ m' => m'.Ordered Thread.Active
    | .error _ m' => m.Fails m' m.Doubles := by
  cases frames : m.current.frames with
  | nil =>
    have handlers := h.current.2
    rw [frames] at handlers
    simp only [Exec.step, Exec.bind_apply, Exec.get_apply, frames, Exec.throw_apply]
    refine .of_same (h.alone (.refl h.sane) ⟨0, 0, 0, 0, 0, ?_, Nat.zero_le _, Nat.zero_le _⟩) rfl
    rw [frames, handlers]
    exact .idle _ _ _
  | cons f rest =>
    obtain ⟨op, a, b, poises⟩ := h.poises frames
    by_cases returns : op = .ret
    · subst returns
      obtain ⟨r, m', done, ordered⟩ := h.returns poises
      rw [done]
      exact ordered
    · have after := h.perform poises returns
      rw [poises.performs returns]
      simp only [Exec.bind_apply]
      generalize Exec.perform f.closure op a b m.advance = r at after
      cases r with
      | ok _ m' => exact after
      | error fault m' => exact after

theorem step_ordered (h : m.Ordered Thread.Active) {r : Option (List Value)}
    (step : Exec.step m = .ok r m') : m'.Ordered Thread.Active := by
  have after := h.step
  rw [step] at after
  exact after

theorem fails_of_error (h : m.Ordered Thread.Active) {fault : Fault}
    (step : Exec.step m = .error fault m') : m.Fails m' m.Doubles := by
  have after := h.step
  rw [step] at after
  exact after

/-- Only the protected call of the protected call lets a fault slip. -/
theorem Slips.doubles (h : m.Ordered Thread.Active) (slips : m.Slips) : m.Doubles := by
  obtain ⟨fault, m', failed, more⟩ := slips
  exact (fails_of_error h failed).doubled more

theorem error_ordered (h : m.Ordered Thread.Active) (firm : ¬m.Slips) {fault : Fault}
    (step : Exec.step m = .error fault m') : m'.Ordered Thread.Recoverable := by
  refine (fails_of_error h step).ordered (Nat.le_of_not_lt fun more => firm ?_)
  exact ⟨fault, m', step, more⟩

/-! ## Faults -/

/-- The innermost handler of the running thread catches a fault. -/
theorem catchWith_ordered (h : m.Ordered Thread.Recoverable) {handler : Handler}
    {outer : List Handler} (handlers : m.current.handlers = handler :: outer) (fault : Fault) :
    (m.catchWith handler outer fault).Ordered Thread.Active := by
  have turns : m.Turns _ _ := (Turns.refl h.sane).modify h.sane fun t =>
    { t.restore handler with handlers := outer.drop handler.wraps, awaitingProtections := 0 }
  have sane := h.sane.alone turns.alone
  refine h.alone (.trans h.sane turns.alone (.pushResults sane _ _)) ?_
  rw [catchWith, current_pushResults sane.running_lt, turns.thread]
  exact h.current.caught handlers _

/-- A fault goes on to the thread that resumed the running one. -/
theorem Ordered.passOn (h : m.Ordered Thread.Blocked) {resumer : Nat} {rest : List Nat}
    (waiting : m.waiting = resumer :: rest) :
    ({ m with running := resumer, waiting := rest } : Machine).Ordered Thread.Recoverable := by
  have bound := h.sane.bound
  have distinct := h.sane.distinct
  have bottom := h.sane.bottom
  have alive := h.alive
  rw [waiting] at bound distinct bottom alive
  have away : resumer ≠ m.running := by
    rintro rfl
    simp at distinct
  refine ⟨⟨h.sane.closures, h.sane.hosts, ?_, (List.nodup_cons.1 distinct).2, bottom⟩, ?_, ?_, ?_⟩
  · exact fun id mem => bound id (List.mem_cons_of_mem _ mem)
  · exact (h.others resumer (bound _ (by simp)) away).recoverable
  · intro id inside other
    by_cases itself : id = m.running
    · rw [itself]
      exact h.current
    · exact h.others id inside itself
  · exact fun id mem => alive id (List.mem_cons_of_mem _ mem)

/-- A thread without a handler dies. -/
theorem Ordered.dies {Runs Runs' : Thread → Prop} (h : m.Ordered Runs) (dead : Runs' {}) :
    (m.modifyCurrent fun _ => {}).Ordered Runs' :=
  h.turns ((Turns.refl h.sane).modify h.sane fun _ => {}) dead

/-- Unwinding goes through the threads that wait, and those without a handler die. -/
theorem unwindFrom_ordered (fault : Fault) {id : Nat} {waiting : List Nat}
    (h : ({ m with running := id, waiting } : Machine).Ordered Thread.Recoverable) :
    (m.unwindFrom fault id waiting).2.Ordered Thread.Active := by
  induction waiting generalizing m id with
  | nil =>
    unfold unwindFrom
    cases handlers : (m.thread id).handlers with
    | cons handler outer => exact catchWith_ordered h handlers fault
    | nil => exact h.dies ⟨rfl, rfl⟩
  | cons resumer rest ih =>
    unfold unwindFrom
    cases handlers : (m.thread id).handlers with
    | cons handler outer => exact catchWith_ordered h handlers fault
    | nil =>
      apply ih
      have dead := h.dies (Thread.blocked_of_dead rfl rfl rfl)
      exact dead.passOn rfl

/-- Unwinding puts the machine in order, whether there is a handler or not. -/
theorem unwind_ordered (h : m.Ordered Thread.Recoverable) (fault : Fault) :
    (m.unwind fault).2.Ordered Thread.Active :=
  unwindFrom_ordered fault h

end Machine

end ScriptEngine
