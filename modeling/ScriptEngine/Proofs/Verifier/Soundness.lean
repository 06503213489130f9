import ScriptEngine.Proofs.Machine.Shift

/-!
# What the verifier's record is worth

The record gives each address the depth of the stack there. It is right about every unit that passes,
compiled or not, in every execution that calls only functions of the host and closures of such units,
and no instruction then reaches below the base of its frame (`Executes.record_sound`), with one reservation. The
check knows of an instruction what it leaves, not what it takes first: four opcodes pass it at depths
where their operands lie below the frame, or with an effect that is not theirs (`Opcode.Overlooked`). What
comes after such an instruction is not accounted for.
-/

set_option linter.dupNamespace false

namespace ScriptEngine

/-- The instructions that pass the check at a depth where they do not do what the record says: a call
with callee and arguments below the frame, which many results make up for; control slots of a loop, or
variables to close over, below the frame; and an expansion that says it takes several slots, of which
there is none. -/
def Opcode.Overlooked (op : Opcode) (a b : Nat) (depth : Int) : Prop :=
  match op with
  | call => depth < a + 1
  | forPrep => depth < 3
  | closeVars => depth < a
  | popVarArgs => 1 < b
  | _ => False

namespace Verifier

variable {u : CodeUnit} {ins : Instruction} {op : Opcode} {d after : Depths} {a b : Nat}

/-- Each of them can be the first instruction of a unit that passes. -/
theorem verify_overlooked :
    ∀ ins ∈ [Instruction.make .call 1 2, .make .forPrep 0 0, .make .closeVars 2 0, .make .popVarArgs 2 2],
      (∃ op, ins.opcode? = some op ∧ op.Overlooked ins.a.toNat ins.b.toNat Depths.initial.depth) ∧
      verify { (default : CodeUnit) with code := #[ins, .make .ret 0 0] } = .ok () := by
  simp only [List.forall_mem_cons]
  refine ⟨⟨⟨.call, rfl, ?_⟩, by cbv⟩, ⟨⟨.forPrep, rfl, ?_⟩, by cbv⟩, ⟨⟨.closeVars, rfl, ?_⟩, by cbv⟩,
    ⟨⟨.popVarArgs, rfl, ?_⟩, by cbv⟩, fun _ h => absurd h List.not_mem_nil⟩
  · exact Int.le_refl 2
  · exact Int.le_of_sub_nonneg (by decide)
  · exact Int.le_refl 2
  · exact Nat.le_refl 2

theorem depths_of_verify (h : verify u = .ok ()) : ∃ record, depths u = .ok record := by
  unfold verify at h
  rw [CodeUnit.walk_eq, List.forM] at h
  cases found : depths u with
  | ok record => exact ⟨record, rfl⟩
  | error failure =>
    rw [found] at h
    cases h

/-- What the check does not overlook has its operands in the frame. -/
theorem touched_le (deep : 1 ≤ d.depth) (flaw : operandFlaw? u op a d.depth = none)
    (left : 1 ≤ (d.after op a b).depth) (fair : ¬op.Overlooked a b d.depth) :
    (op.touched a b : Int) ≤ d.depth := by
  cases op with
  | call | forPrep | closeVars => exact Int.not_lt.1 fair
  | popVarArgs =>
    simp only [Opcode.Overlooked] at fair
    simp only [Opcode.touched]
    omega
  | putStack =>
    simp only [operandFlaw?, ite_eq_right_iff, reduceCtorEq, imp_false] at flaw
    simp only [Opcode.touched, Opcode.operands]
    omega
  | _ =>
    simp only [Depths.after, Instruction.stackEffect] at left
    simp only [Opcode.touched, Opcode.operands]
    omega

/-- Offsets of reads and writes point into the frame. -/
theorem offset_le (flaw : operandFlaw? u op a d.depth = none) (which : op = .getStack ∨ op = .putStack) :
    1 ≤ a ∧ (a : Int) ≤ d.depth := by
  rcases which with rfl | rfl
  all_goals
    simp only [operandFlaw?, ite_eq_right_iff, reduceCtorEq, imp_false] at flaw
    omega

end Verifier

/-! ## Frames where the record says -/

/-- The frame's unit has passed the check, and the top of the stack is where the record has it for the
frame's address. -/
structure Frame.Recorded (f : Frame) (size : Nat) : Prop where
  passed : Verifier.verify f.closure.unit = .ok ()
  depth : ∃ record d, Verifier.depths f.closure.unit = .ok record ∧ record.at? f.ip = some d ∧
    1 ≤ d.depth ∧ (size : Int) = f.base + d.depth

namespace Frame.Recorded

variable {f : Frame} {size : Nat}

/-- A frame starts as its record does. -/
theorem start (passed : Verifier.verify f.closure.unit = .ok ()) (ip : f.ip = 0)
    (args : size = f.base + 1) : f.Recorded size := by
  obtain ⟨record, accepted⟩ := Verifier.depths_of_verify passed
  refine ⟨passed, record, .initial, accepted, ip ▸ (Verifier.assigned_of_depths accepted).start,
    Int.le_refl 1, ?_⟩
  rw [args]
  rfl

end Frame.Recorded

/-- All but the `keep` oldest of the frames are where their records say: the innermost now, with `size`
stack slots, and each other one when the frame above it has returned. -/
def Stacked (keep : Nat) : Nat → List Frame → Prop
  | _, [] => True
  | size, f :: rest => keep ≤ rest.length → f.Recorded size ∧ Stacked keep (f.base + slots f.want) rest

namespace Machine

variable {m m' : Machine} {f : Frame} {rest : List Frame} {op : Opcode} {a b : Nat}

/-- Whatever the next step calls is a function of the host, or a closure whose unit has passed the
check. -/
def CallsPassed (m : Machine) : Prop :=
  ∀ callee args want, m.nextCall? = some (callee, args, want) →
    (∀ f given, m.callTarget callee args ≠ .ok (.core f, given)) ∧
    ∀ id given c, m.callTarget callee args = .ok (.closure id, given) →
      m.store.closures[id]? = some c → Verifier.verify c.unit = .ok ()

/-- The next instruction is one that the check overlooks at its depth. -/
def Oversteps (m : Machine) : Prop :=
  ∃ f rest op a b, m.current.frames = f :: rest ∧ m.next? = some (op, a, b) ∧
    op.Overlooked a b (m.current.stack.size - f.base)

/-- An execution by a thread: a frame starts on top of `keep` others, with its arguments in its first
slot, and steps follow until that frame is left. They call only what has passed the check, and what the
check overlooks is not among them. -/
inductive Executes (id keep : Nat) : Machine → Prop where
  | start {m : Machine} {f : Frame} {rest : List Frame} (running : m.running = id)
      (free : m.running ∉ m.waiting) (frames : m.current.frames = f :: rest) (below : rest.length = keep)
      (passed : Verifier.verify f.closure.unit = .ok ()) (ip : f.ip = 0)
      (args : m.current.stack.size = f.base + 1) : Executes id keep m
  | step {m m' : Machine} (h : Executes id keep m) (calls : m.CallsPassed) (fair : ¬m.Oversteps)
      (step : Exec.step m = .ok none m') (running : m'.running = id)
      (within : keep < m'.current.frames.length) : Executes id keep m'

/-- A thread with frames is there. -/
theorem inside_of_frames (frames : m.current.frames = f :: rest) : m.running < m.threads.size := by
  by_contra outside
  have none' : m.current = {} := by
    simp [current, thread, Array.getElem?_eq_none (Nat.le_of_not_lt outside)]
  rw [none'] at frames
  cases frames

/-- To call a closure is to start an execution. -/
theorem Executes.enter {c : Closure} {args : List Value} {want n : Nat} {u : Unit}
    (inside : m.running < m.threads.size) (free : m.running ∉ m.waiting)
    (passed : Verifier.verify c.unit = .ok ()) (entered : Exec.enter c args want n m = .ok u m') :
    m'.Executes m.running m.current.frames.length := by
  obtain ⟨f, rfl, start, base, -, leaves⟩ := enter_leaves inside entered
  refine .start leaves.running ?_ leaves.frames rfl passed start (base ▸ leaves.stack)
  rw [leaves.running, leaves.waiting]
  exact free

/-- The innermost frame is at an instruction that has passed the check at its depth: it finds its
operands in the frame unless it was overlooked, and wherever it leaves the frame with its static effect,
the record says so. -/
structure Vetted (m : Machine) (f : Frame) (rest : List Frame) (d : Depths) (op : Opcode) (a b : Nat) :
    Prop where
  frames : m.current.frames = f :: rest
  instruction : m.next? = some (op, a, b)
  depth : (m.current.stack.size : Int) = f.base + d.depth
  touched : ¬op.Overlooked a b d.depth → f.base + op.touched a b ≤ m.current.stack.size
  offset : op = .getStack ∨ op = .putStack → 1 ≤ a ∧ f.base + a ≤ m.current.stack.size
  next : ∀ ip size : Nat, (ip = f.ip + 1 ∧ op.continues = true) ∨ (ip = a ∧ op.isJump = true) →
    (size : Int) = m.current.stack.size + Instruction.stackEffect op a b →
    Frame.Recorded { f with ip } size

/-- There is an instruction where the frame stands. -/
theorem vetted_of_recorded (frames : m.current.frames = f :: rest)
    (h : f.Recorded m.current.stack.size) : ∃ record d op a b,
      Verifier.depths f.closure.unit = .ok record ∧ record.at? f.ip = some d ∧ m.Vetted f rest d op a b := by
  obtain ⟨passed, record, d, accepted, here, deep, depth⟩ := h
  obtain ⟨ins, op, after, code, check, successors⟩ := (Verifier.assigned_of_depths accepted).step _ _ here
  obtain ⟨opcode, flaw, rfl, left, -⟩ := Verifier.checkInstruction_eq_ok_iff.1 check
  refine ⟨record, d, op, ins.a.toNat, ins.b.toNat, accepted, here, frames, ?_, depth, fun fair => ?_,
    fun which => ?_, fun ip size goes effect => ⟨passed, record, _, accepted, successors ip ?_, left, ?_⟩⟩
  · simp only [next?, frames, code, opcode, List.head?_cons, Option.bind_eq_bind, Option.bind_some]
  · have := Verifier.touched_le deep flaw left fair
    omega
  · have := Verifier.offset_le flaw which
    omega
  · exact Verifier.mem_successors.2 (goes.imp And.symm And.symm)
  · simp only [Depths.after]
    omega

/-- A return leaves the frame below where its record says. -/
theorem returnFrom_stacked {keep : Nat} (free : m.running ∉ m.waiting)
    (frames : m.current.frames = f :: rest) (below : Stacked keep (f.base + slots f.want) rest)
    (base : f.base ≤ m.current.stack.size) {results : List Value}
    (step : Exec.returnFrom results m = .ok none m') (running : m'.running = m.running) :
    m'.waiting = m.waiting ∧ Stacked keep m'.current.stack.size m'.current.frames := by
  have inside := inside_of_frames frames
  rcases Exec.returnFrom_cases frames results with ⟨-, done⟩ | ⟨-, -, done⟩ |
    ⟨-, resumer, others, waiting, done⟩ <;> rw [done] at step <;> cases step
  · refine ⟨by simp [pushResults], ?_⟩
    rw [current_pushResults (by simpa using inside), current_modifyCurrent inside]
    simp only [Thread.withCells, Frame.leave, Array.size_append, Array.size_shrink, Array.size_range',
      Nat.min_eq_left base]
    exact below
  · -- control has gone to another thread
    obtain rfl : resumer = m.running := running
    exact absurd (waiting ▸ List.mem_cons_self) free

namespace Vetted

variable {d : Depths} {keep : Nat}

theorem advanced (h : m.Vetted f rest d op a b) :
    m.advance.running < m.advance.threads.size ∧
      m.advance.current.frames = { f with ip := f.ip + 1 } :: rest ∧
      m.advance.current.stack = m.current.stack := by
  have inside := inside_of_frames h.frames
  rw [current_advance inside h.frames]
  exact ⟨by simpa [advance] using inside, rfl, rfl⟩

theorem fair (h : m.Vetted f rest d op a b) (fair : ¬m.Oversteps) : ¬op.Overlooked a b d.depth := by
  intro overlooked
  refine fair ⟨f, rest, op, a, b, h.frames, h.instruction, ?_⟩
  rwa [h.depth, add_sub_cancel_left]

theorem nextCall?_eq (h : m.Vetted f rest d op a b) : m.nextCall? = m.advance.request? op a b := by
  rw [nextCall?, h.instruction, request?_advance (inside_of_frames h.frames)]
  rfl

/-- An instruction leaves its frame where the record says, and so does a call when it is over. -/
theorem performed (h : m.Vetted f rest d op a b) (other : op ≠ .ret) (calls : m.CallsPassed)
    (fair : ¬op.Overlooked a b d.depth) (below : Stacked keep (f.base + slots f.want) rest) {u : Unit}
    (done : Exec.perform f.closure op a b m.advance = .ok u m') :
    m'.waiting = m.waiting ∧ Stacked keep m'.current.stack.size m'.current.frames := by
  obtain ⟨inside, frames, stack⟩ := h.advanced
  have touched := h.touched fair
  cases asked : m.advance.request? op a b with
  | none =>
    have expand : op = .popVarArgs → b ≤ 1 := by
      rintro rfl
      exact Nat.le_of_not_lt fair
    obtain ⟨size, ip, leaves, effect, goes⟩ :=
      perform_finishes inside frames (by rw [stack]; omega) expand other asked done
    refine ⟨leaves.waiting, ?_⟩
    rw [leaves.stack, leaves.frames]
    exact fun _ => ⟨h.next ip size goes (stack ▸ effect), below⟩
  | some request =>
    obtain ⟨callee, args, want⟩ := request
    obtain ⟨core, enters⟩ := calls callee args want (h.nextCall?_eq.trans asked)
    obtain ⟨effect, -, continues⟩ := slots_of_request asked
    have dropped := Leaves.drop inside (op.touched a b)
    rw [stack] at dropped
    have back : Frame.Recorded { f with ip := f.ip + 1 }
        (m.current.stack.size - op.touched a b + slots want) :=
      h.next (f.ip + 1) _ (Or.inl ⟨rfl, continues⟩) (by omega)
    cases perform_direct inside frames asked core enters done with
    | answered leaves =>
      refine ⟨leaves.waiting, ?_⟩
      rw [leaves.stack, leaves.frames, dropped.stack, dropped.frames, frames]
      exact fun _ => ⟨back, below⟩
    | @entered g passed start base wants leaves =>
      refine ⟨leaves.waiting, ?_⟩
      rw [leaves.stack, leaves.frames, dropped.frames, frames]
      refine fun _ => ⟨.start passed start (by rw [base]), fun _ => ⟨?_, below⟩⟩
      rw [base, wants, dropped.stack]
      exact back

/-- A step leaves all frames of an execution where their records say. -/
theorem stepped (h : m.Vetted f rest d op a b) (free : m.running ∉ m.waiting) (calls : m.CallsPassed)
    (fair : ¬m.Oversteps) (below : Stacked keep (f.base + slots f.want) rest)
    (step : Exec.step m = .ok none m') (running : m'.running = m.running) :
    m'.waiting = m.waiting ∧ Stacked keep m'.current.stack.size m'.current.frames := by
  obtain ⟨inside, frames, stack⟩ := h.advanced
  have fair := h.fair fair
  obtain ⟨returns, performs⟩ := step_eq h.frames h.instruction
  by_cases ret : op = .ret
  · subst ret
    rw [returns rfl] at step
    simp only [Exec.bind_apply, Exec.popSpread_eq] at step
    have dropped := Leaves.drop inside a
    have own : f.base + a ≤ m.current.stack.size := h.touched fair
    refine returnFrom_stacked (m := m.advance.drop a) free (dropped.frames.trans frames) below ?_ step
      running
    rw [dropped.stack, stack]
    exact Nat.le_sub_of_add_le own
  · rw [performs ret] at step
    simp only [Exec.bind_apply] at step
    cases done : Exec.perform f.closure op a b m.advance with
    | error fault k =>
      rw [done] at step
      cases step
    | ok u k =>
      rw [done] at step
      cases step
      exact h.performed ret calls fair below done

/-- Calls that come to no core function do the same on other ground. -/
theorem answers {g : Ground} (stands : m.Stands g) {callee : Value} {args : List Value} {want : Nat}
    (core : ∀ f given, m.callTarget callee args ≠ .ok (.core f, given)) : m.Answers g callee args want where
  blind := Blind.call_of_core stands fun f given target => absurd target (core f given)
  grows u m' called := by
    have thread : m'.running = m.running → m'.thread m.running = m'.current := fun same => by
      rw [← same]
      rfl
    have direct : m.Direct m' want fun _ => True :=
      call_direct stands.inside core (fun _ _ _ _ _ => trivial) called
    cases direct with
    | answered leaves =>
      rw [thread leaves.running, leaves.stack, leaves.frames, leaves.handlers]
      have := leaves.inside
      rw [leaves.running] at this
      omega
    | entered _ _ _ _ leaves =>
      rw [thread leaves.running, leaves.stack, leaves.frames, leaves.handlers, List.length_cons]
      have := leaves.inside
      rw [leaves.running] at this
      omega

theorem step_onto (h : m.Vetted f rest d op a b) (free : m.running ∉ m.waiting) (calls : m.CallsPassed)
    (fair : ¬op.Overlooked a b d.depth) {g : Ground} (stands : m.Stands g) (base : g.base = f.base)
    (above : g.frames = rest.length) : Blind g Exec.step m := by
  obtain ⟨inside, frames, stack⟩ := h.advanced
  have touched : g.base + op.touched a b ≤ m.advance.current.stack.size := by
    rw [base, stack]
    exact h.touched fair
  refine Machine.step_onto h.instruction free stands h.frames ⟨stands.advanced, frames, base, above,
    touched, fun which => ?_, fun callee args want asked => ?_⟩
  · rw [base, stack]
    exact h.offset which
  · exact answers (stands.advanced.dropped touched)
      (calls callee args want (h.nextCall?_eq.trans asked)).1

end Vetted

/-- In every state of an execution all its frames are where their records say. -/
theorem Executes.stacked {id keep : Nat} (h : m.Executes id keep) :
    m.running = id ∧ m.running ∉ m.waiting ∧ keep < m.current.frames.length ∧
      Stacked keep m.current.stack.size m.current.frames := by
  induction h with
  | @start m f rest running free frames below passed ip args =>
    rw [frames]
    refine ⟨running, free, by rw [← below]; exact Nat.lt_succ_self _, fun _ => ⟨.start passed ip args, ?_⟩⟩
    -- below the frame there is nothing to account for
    cases rest with
    | nil => trivial
    | cons g rest => exact fun few => absurd few (by simp at below; omega)
  | @step m m' h calls fair step running within ih =>
    obtain ⟨running', free, within', stacked⟩ := ih
    obtain ⟨f, rest, frames⟩ := List.exists_cons_of_length_pos (Nat.zero_lt_of_lt within')
    rw [frames] at stacked within'
    obtain ⟨recorded, below⟩ := stacked (Nat.le_of_lt_succ within')
    obtain ⟨record, d, op, a, b, -, -, vetted⟩ := vetted_of_recorded frames recorded
    obtain ⟨waiting, stacked'⟩ := vetted.stepped free calls fair below step (running.trans running'.symm)
    refine ⟨running, ?_, within, stacked'⟩
    rw [running, waiting, ← running']
    exact free

/-- The verifier is sound but for what it overlooks. In every execution that calls only functions of the
host and closures of units that have passed, and comes to no overlooked instruction, the stack of the
innermost frame has the depth that is recorded for the frame's address; and unless the instruction there
is overlooked, its operands are above the frame's base, and the step is the same whatever cells are below
it, so that it neither pops nor reads, overwrites or captures any of them. -/
theorem Executes.record_sound {id keep : Nat} (h : m.Executes id keep) :
    ∃ f rest record d op a b, m.current.frames = f :: rest ∧
      Verifier.depths f.closure.unit = .ok record ∧ record.at? f.ip = some d ∧
      (m.current.stack.size : Int) = f.base + d.depth ∧ m.next? = some (op, a, b) ∧
      (m.CallsPassed → ¬op.Overlooked a b d.depth → f.base + op.touched a b ≤ m.current.stack.size ∧
        ∀ (cells : Array Nat) (enough : f.base ≤ cells.size),
          let g : Ground := ⟨m.running, rest.length, m.current.handlers.length, f.base, cells, enough⟩
          Exec.step (m.onto g) = g.result (Exec.step m)) := by
  obtain ⟨-, free, within, stacked⟩ := h.stacked
  obtain ⟨f, rest, frames⟩ := List.exists_cons_of_length_pos (Nat.zero_lt_of_lt within)
  rw [frames] at stacked within
  obtain ⟨record, d, op, a, b, accepted, here, vetted⟩ :=
    vetted_of_recorded frames (stacked (Nat.le_of_lt_succ within)).1
  refine ⟨f, rest, record, d, op, a, b, frames, accepted, here, vetted.depth, vetted.instruction,
    fun calls fair => ⟨vetted.touched fair, fun cells enough => ?_⟩⟩
  refine vetted.step_onto free calls fair ⟨rfl, inside_of_frames frames, ?_, ?_, Nat.le_refl _⟩ rfl rfl
  · exact Nat.le_trans (Nat.le_add_right _ _) (vetted.touched fair)
  · show rest.length ≤ m.current.frames.length
    rw [frames]
    exact Nat.le_succ _

/-- Code that no compiler makes: a table is put in the place of the arguments. -/
theorem Executes.record_sound_putStack : ∃ m : Machine, m.Executes 0 0 ∧ m.CallsPassed ∧
    m.next? = some (.putStack, 2, 0) ∧
    ∃ f rest record d op a b, m.current.frames = f :: rest ∧
      Verifier.depths f.closure.unit = .ok record ∧ record.at? f.ip = some d ∧
      (m.current.stack.size : Int) = f.base + d.depth ∧ m.next? = some (op, a, b) ∧
      (m.CallsPassed → ¬op.Overlooked a b d.depth → f.base + op.touched a b ≤ m.current.stack.size ∧
        ∀ (cells : Array Nat) (enough : f.base ≤ cells.size),
          let g : Ground := ⟨m.running, rest.length, m.current.handlers.length, f.base, cells, enough⟩
          Exec.step (m.onto g) = g.result (Exec.step m)) := by
  obtain ⟨u, passed, entered⟩ : ∃ u : CodeUnit, Verifier.verify u = .ok () ∧
      ∃ m, Exec.enter ⟨u, #[]⟩ [] 0 0 { config := {} } = .ok () m ∧
        m.next? = some (.newTable, 0, 0) ∧ m.nextCall? = none ∧
        ∃ m', Exec.step m = .ok none m' ∧ m'.running = 0 ∧ 0 < m'.current.frames.length ∧
          m'.next? = some (.putStack, 2, 0) ∧ m'.nextCall? = none :=
    ⟨{ (default : CodeUnit) with
        code := #[.make .newTable 0 0, .make .putStack 2 0, .make .getStack 1 0, .make .ret 1 0] },
      by cbv, _, rfl, rfl, rfl, _, rfl, rfl, Nat.one_pos, rfl, rfl⟩
  obtain ⟨m, entered, first, asks, m', step, running, within, next, asks'⟩ := entered
  have quiet {m : Machine} (none' : m.nextCall? = none) : m.CallsPassed := by
    intro callee args want asked
    rw [none'] at asked
    cases asked
  have fair : ¬m.Oversteps := by
    rintro ⟨f, rest, op, a, b, -, at', overlooked⟩
    rw [first] at at'
    cases at'
    exact overlooked
  have executes : m.Executes 0 0 := .enter (m := { config := {} }) Nat.one_pos List.not_mem_nil passed entered
  have executes' : m'.Executes 0 0 := executes.step (quiet asks) fair step running within
  exact ⟨m', executes', quiet asks', next, executes'.record_sound⟩

end Machine

end ScriptEngine
