import ScriptEngine.Proofs.Machine.Capture
import ScriptEngine.Proofs.Machine.Unwinding

/-!
# What a move does to a thread

One move of the machine does one of four things to the stack and the frames of a thread (`Machine.Evolves`): an
instruction works on its operands and may enter a frame, something is put on top, frames are left together with
the slots that they worked on, or the thread dies (`Ordered.moves_evolve`). A fault is no exception: the handler
that gets it knows where the innermost of the frames that are left began (`Pends.source`).
-/

set_option linter.dupNamespace false

namespace ScriptEngine

variable {frames : List Frame} {handler : Handler} {outer : List Handler} {stack captures want n : Nat}

/-- The innermost handler leaves some of the frames and goes back to where the lowest of them began. -/
theorem Pends.source (pends : Pends frames (handler :: outer) stack captures want n) :
    ∃ gone kept, frames = gone ++ kept ∧ kept.length = handler.frames ∧ handler.stack ≤ stack ∧
      (∀ g ∈ gone, handler.stack ≤ g.base) ∧
      ((gone = [] ∧ handler.stack = stack) ∨ ∃ g ∈ gone, handler.stack = g.base) := by
  generalize same : handler :: outer = handlers at pends
  induction pends with
  | idle => cases same
  | @call f rest hs hs' stack captures want n awaits group below ih =>
    cases hs with
    | nil =>
      -- the handler is that of a frame below, so the innermost frame is left
      obtain ⟨gone, kept, rfl, length, low, bases, lowest⟩ := ih same
      refine ⟨f :: gone, kept, rfl, length, low.trans awaits.base, List.forall_mem_cons.2 ⟨low, bases⟩, Or.inr ?_⟩
      rcases lowest with ⟨-, start⟩ | ⟨g, mem, start⟩
      · exact ⟨f, List.mem_cons_self, start⟩
      · exact ⟨g, List.mem_cons_of_mem _ mem, start⟩
    | cons h hs =>
      rw [List.cons_append] at same
      obtain ⟨rfl, rfl⟩ := List.cons.inj same
      obtain ⟨noted, start, -⟩ := group.noted handler List.mem_cons_self
      exact ⟨[], f :: rest, rfl, noted.symm, Nat.le_of_eq start, by simp, Or.inl ⟨rfl, start⟩⟩

namespace Machine

variable {m m' : Machine} {id : Nat}

/-- What a move from `m` to `m'` does to the stack and the frames of thread `id`. -/
inductive Evolves (m m' : Machine) (id : Nat) : Prop where
  /-- The innermost frame's instruction has put something in the place of its operands. -/
  | works {f : Frame} {rest new : List Frame} {op : Opcode} {a b ip : Nat} (running : m.running = id)
      (poises : m.Poises f rest op a b) (other : op ≠ .ret) (goes : ip ∈ Verifier.successors op a f.ip)
      (frames : (m'.thread id).frames = new ++ { f with ip } :: rest)
      (bases : ∀ g ∈ new, m.current.stack.size - op.touched a b ≤ g.base)
      (size : m.current.stack.size - op.touched a b ≤ (m'.thread id).stack.size)
      (stack : ∀ i, i < m.current.stack.size - op.touched a b →
        (m'.thread id).stack[i]? = m.current.stack[i]?)
  /-- Something has been put on top. -/
  | gets (away : id ≠ m.running) (frames : (m'.thread id).frames = (m.thread id).frames)
      (size : (m.thread id).stack.size ≤ (m'.thread id).stack.size)
      (stack : ∀ i, i < (m.thread id).stack.size → (m'.thread id).stack[i]? = (m.thread id).stack[i]?)
  /-- Frames have been left. What is above their slots is new. -/
  | leaves {g : Frame} {gone kept : List Frame} (frames : (m.thread id).frames = gone ++ kept)
      (frames' : (m'.thread id).frames = kept) (mem : g ∈ gone) (lowest : ∀ f ∈ gone, g.base ≤ f.base)
      (size : g.base ≤ (m'.thread id).stack.size)
      (stack : ∀ i, i < g.base → (m'.thread id).stack[i]? = (m.thread id).stack[i]?)
      (fresh : ∀ i x, g.base ≤ i → m'.Slot id i x → m.store.cells.size ≤ x)
  | dies (frames : (m'.thread id).frames = [])

/-! ## Faults -/

/-- What a fault in the instruction of `f` finds: the handlers are those of the frames below, or there is that of a
protected call which the instruction has just made. -/
structure Finds (m m' : Machine) (f : Frame) (rest : List Frame) (op : Opcode) (a b : Nat) : Prop where
  other : op ≠ .ret
  alone : m.Alone m'
  frames : m'.current.frames = { f with ip := f.ip + 1 } :: rest
  stack : ∃ size, m.current.stack.size - op.touched a b ≤ size ∧ size ≤ m.current.stack.size ∧
    m'.current.stack = m.current.stack.take size
  pends : (∃ captures want n, Pends rest m'.current.handlers f.base captures want n) ∨
    op.continues = true ∧ m'.current.stack.size = m.current.stack.size - op.touched a b ∧ ∃ captures want n,
      Pends ({ f with ip := f.ip + 1 } :: rest) m'.current.handlers m'.current.stack.size captures want n

/-- A fault that does not slip. -/
theorem Ordered.finds (h : m.Ordered Thread.Active) (firm : ¬m.Slips) {f : Frame} {rest : List Frame}
    {op : Opcode} {a b : Nat} (poises : m.Poises f rest op a b) {fault : Fault}
    (step : Exec.step m = .error fault m') : m.Finds m' f rest op a b := by
  have ret : op ≠ .ret := by
    rintro rfl
    obtain ⟨r, m₁, done, -⟩ := h.returns poises
    rw [done] at step
    cases step
  have few : m'.current.handlers.length ≤ m.current.handlers.length + 1 :=
    Nat.le_of_not_lt fun more => firm ⟨fault, m', step, more⟩
  have advanced : m.Alone m.advance := .modifyCurrent h.sane _
  have failed : Exec.perform f.closure op a b m.advance = .error fault m' := by
    rw [poises.performs ret, Exec.bind_apply] at step
    cases done : Exec.perform f.closure op a b m.advance with
    | ok u m₁ =>
      rw [done] at step
      cases step
    | error fault' m₁ =>
      rw [done] at step
      cases step
      rfl
  obtain ⟨captured, d, poised⟩ := poises.poised
  have thread := poises.thread
  have result := performed poised ret
  rw [failed] at result
  generalize same : EStateM.Result.error fault m' = r at result
  cases result with
  | stays => cases same
  | @raises _ size _ low high turns _ =>
    cases same
    rw [thread] at turns low high
    refine ⟨ret, advanced.trans h.sane turns.alone, by rw [turns.thread], ⟨size, low, high, by rw [turns.thread]⟩,
      Or.inl ⟨f.captureBase, f.want, f.protections, ?_⟩⟩
    rw [turns.thread]
    exact poises.upright.below
  | @calls m₁ callee args want r asked turns dropped size closed next called =>
    rw [thread] at turns
    have alone := advanced.trans h.sane turns.alone
    have calling : m₁.Ordered (Thread.Calling want) :=
      (advance_ordered h).turns turns (poises.calls h.current.1 size closed next)
    obtain ⟨reply, out, -, -⟩ := Exec.call_outcome calling.sane callee args want
    have failed : Exec.call callee args want m₁ = .error fault m' := by
      rcases called with rfl | ⟨rfl, rfl⟩
      · exact same.symm
      · rw [Exec.bind_apply] at same
        cases made : Exec.call callee args 1 m₁ with
        | error fault' m₂ =>
          rw [made] at same
          cases same
          rfl
        | ok u m₂ =>
          rw [made] at same out
          obtain ⟨m₃, judged, -⟩ := judge_cases (calling.outcome_ok out).sane m.advance.running (rest.length + 1)
          simp only [judged] at same
          cases same
    rw [failed] at out
    have handlers := out.handlers_of_error
    rw [show m₁.current.handlers = m.current.handlers by rw [turns.thread]] at handlers
    cases out with
    | raised raised =>
      simp only [Reply.layers] at handlers
      obtain ⟨hs, guards, thread'⟩ := raised.guards (by omega)
      have pends := calling.current.2.2.guard calling.current.2.1 guards
      have stack : m'.current.stack = m.current.stack.take (m.current.stack.size - op.touched a b) := by
        rw [thread', turns.thread]
      refine ⟨ret, alone.trans h.sane raised.alone, by rw [thread', turns.thread],
        ⟨_, Nat.le_refl _, Nat.sub_le _ _, stack⟩, Or.inr ⟨next, ?_, ?_⟩⟩
      · rw [stack, Array.size_extract]
        omega
      · rw [thread']
        rw [turns.thread] at pends ⊢
        exact ⟨_, _, _, pends⟩

/-- Frames are left, and new cells come on top of the slots below them. -/
theorem Evolves.cut {g : Frame} {gone kept : List Frame} {fresh : Array Nat}
    (frames : (m.thread id).frames = gone ++ kept) (frames' : (m'.thread id).frames = kept) (mem : g ∈ gone)
    (lowest : ∀ f ∈ gone, g.base ≤ f.base) (inside : g.base ≤ (m.thread id).stack.size)
    (stack : (m'.thread id).stack = (m.thread id).stack.take g.base ++ fresh)
    (new : ∀ x ∈ fresh, m.store.cells.size ≤ x) : m.Evolves m' id := by
  have length : ((m.thread id).stack.take g.base).size = g.base := by
    simp only [Array.size_extract]
    omega
  refine .leaves frames frames' mem lowest ?_ (fun i low => ?_) fun i x high slot => ?_
  · rw [stack, Array.size_append, length]
    omega
  · rw [stack, Array.getElem?_append_left (by omega), Array.getElem?_extract, if_pos (by omega), Nat.zero_add]
  · rw [Slot, stack, Array.getElem?_append_right (by omega)] at slot
    exact new x (Array.mem_of_getElem? slot)

/-- What a fault does to a waiting thread whose innermost handler gets it. -/
theorem Evolves.caught {handler : Handler} {outer : List Handler} {fresh : Array Nat}
    (away : id ≠ m.running) (blocked : (m.thread id).Blocked) (handlers : (m.thread id).handlers = handler :: outer)
    (back : (m.thread id).GoesBack (m'.thread id) handler outer fresh) (new : ∀ x ∈ fresh, m.store.cells.size ≤ x) :
    m.Evolves m' id := by
  unfold Thread.Blocked at blocked
  rw [handlers] at blocked
  obtain ⟨gone, kept, frames, length, inside, low, lowest⟩ := blocked.source
  have frames' : (m'.thread id).frames = kept := by
    rw [back.frames, frames, ← length, List.rtake_eq_reverse_take_reverse]
    simp
  have stack := back.stack
  rcases lowest with ⟨rfl, start⟩ | ⟨g, mem, start⟩
  · rw [start, show (m.thread id).stack.take (m.thread id).stack.size = (m.thread id).stack by simp] at stack
    refine .gets away (frames'.trans frames.symm) ?_ fun i inside => ?_
    · rw [stack, Array.size_append]
      omega
    · rw [stack, Array.getElem?_append_left inside]
  · rw [start] at stack low inside
    exact .cut frames frames' mem low inside stack new

/-- A thread that neither runs nor waits, or waits below the one that gets the fault. -/
theorem Evolves.same (away : id ≠ m.running) (thread : m'.thread id = m.thread id) : m.Evolves m' id :=
  .gets away (by rw [thread]) (by rw [thread]) fun _ _ => by rw [thread]

/-- A waiting thread gets what it waited for. -/
theorem Evolves.receive (away : id ≠ m.running) {cell : Nat} (thread : m'.thread id = (m.thread id).receive cell) :
    m.Evolves m' id := by
  refine .gets away ((congrArg Thread.frames thread).trans rfl) ?_ fun i low => ?_
  · rw [thread]
    simp [Thread.receive, Thread.withCells]
  · rw [thread]
    simp [Thread.receive, Thread.withCells, Array.getElem?_append_left low]

/-- Some thread has a handler, and those above it have none. -/
theorem exists_catcher (m : Machine) (ids : List Nat) : (∀ k ∈ ids, (m.thread k).handlers = []) ∨
    ∃ above k below handler outer, ids = above ++ k :: below ∧ (∀ j ∈ above, (m.thread j).handlers = []) ∧
      (m.thread k).handlers = handler :: outer := by
  induction ids with
  | nil => exact Or.inl (by simp)
  | cons k rest ih =>
    cases handlers : (m.thread k).handlers with
    | cons handler outer => exact Or.inr ⟨[], k, rest, handler, outer, rfl, by simp, handlers⟩
    | nil =>
      rcases ih with bare | ⟨above, j, below, handler, outer, rfl, bare, handlers'⟩
      · exact Or.inl (List.forall_mem_cons.2 ⟨handlers, bare⟩)
      · exact Or.inr ⟨k :: above, j, below, handler, outer, rfl, List.forall_mem_cons.2 ⟨handlers, bare⟩, handlers'⟩

/-- What a fault in its instruction does to the running thread. -/
theorem Finds.caught {f : Frame} {rest : List Frame} {op : Opcode} {a b : Nat} {n : Machine} {handler : Handler}
    {outer : List Handler} {fresh : Array Nat} (poises : m.Poises f rest op a b) (finds : m.Finds n f rest op a b)
    (handlers : n.current.handlers = handler :: outer)
    (back : n.current.GoesBack (m'.thread m.running) handler outer fresh)
    (new : ∀ x ∈ fresh, m.store.cells.size ≤ x) : m.Evolves m' m.running := by
  obtain ⟨other, alone, frames, ⟨size, low, high, taken⟩, pends⟩ := finds
  have stack := back.stack
  have back := back.frames
  have touched := poises.touched_le
  -- all frames down to one that began at `handler.stack` are left
  have leave {g : Frame} {gone kept : List Frame} (split : f :: rest = gone ++ kept)
      (left : (m'.thread m.running).frames = kept) (mem : g ∈ gone) (start : handler.stack = g.base)
      (lowest : ∀ f ∈ gone, handler.stack ≤ f.base) (inside : handler.stack ≤ size) : m.Evolves m' m.running := by
    refine .cut (poises.frames.trans split) left mem (fun f mem => start ▸ lowest f mem)
      (by rw [← start]; exact Nat.le_trans inside high) ?_ new
    rw [stack, taken, start, show m.thread m.running = m.current from rfl]
    simp [Nat.min_eq_left (start ▸ inside)]
  rcases pends with ⟨captures, want, k, pends⟩ | ⟨continues, length, captures, want, k, pends⟩
  · rw [handlers] at pends
    obtain ⟨gone, kept, split, length, inside, bases, lowest⟩ := pends.source
    have left : (m'.thread m.running).frames = kept := by
      rw [back, frames, split, ← length, List.rtake_eq_reverse_take_reverse]
      simp
    have split' : f :: rest = (f :: gone) ++ kept := by rw [split, List.cons_append]
    have low' : ∀ g ∈ f :: gone, handler.stack ≤ g.base := List.forall_mem_cons.2 ⟨inside, bases⟩
    rcases lowest with ⟨rfl, start⟩ | ⟨g, mem, start⟩
    · exact leave split' left List.mem_cons_self start low' (by omega)
    · exact leave split' left (List.mem_cons_of_mem _ mem) start low' (by omega)
  · rw [handlers] at pends
    obtain ⟨gone, kept, split, count, inside, bases, lowest⟩ := pends.source
    have left : (m'.thread m.running).frames = kept := by
      rw [back, frames, split, ← count, List.rtake_eq_reverse_take_reverse]
      simp
    have most : n.current.stack.size = size := by
      rw [taken, Array.size_extract]
      omega
    cases gone with
    | nil =>
      obtain ⟨-, start⟩ := lowest.resolve_right (by simp)
      have same : n.current.stack.take n.current.stack.size = n.current.stack := by simp
      rw [start, same, taken, show size = m.current.stack.size - op.touched a b by omega] at stack
      refine .works rfl poises other (Verifier.mem_successors.2 (Or.inl ⟨continues, rfl⟩))
        (left.trans split.symm : _ = [] ++ _) (by simp) ?_ fun i low => ?_
      · rw [stack, Array.size_append, Array.size_extract]
        omega
      · rw [stack, Array.getElem?_append_left (by simp only [Array.size_extract]; omega), Array.getElem?_extract,
          if_pos (by omega), Nat.zero_add]
    | cons g gone =>
      obtain ⟨rfl, below⟩ := List.cons.inj split
      have split' : f :: rest = (f :: gone) ++ kept := congrArg (f :: ·) below
      have low' : ∀ g ∈ f :: gone, handler.stack ≤ g.base := by
        obtain ⟨first, others⟩ := List.forall_mem_cons.1 bases
        exact List.forall_mem_cons.2 ⟨first, others⟩
      obtain ⟨g, mem, start⟩ := lowest.resolve_left (by simp)
      rcases List.mem_cons.1 mem with rfl | mem
      · exact leave split' left List.mem_cons_self start low' (by omega)
      · exact leave split' left (List.mem_cons_of_mem _ mem) start low' (by omega)

/-- A fault does one of the four things to a thread. -/
theorem Ordered.fault_evolves (h : m.Ordered Thread.Active) (separate : m.Separate) (firm : ¬m.Slips)
    {fault : Fault} {n : Machine} (step : Exec.step m = .error fault n) (inside : id < m.threads.size)
    (reason : Fault) : m.Evolves (n.unwind reason).2 id := by
  obtain ⟨alone, cells, found⟩ : m.Alone n ∧ m.store.cells.size ≤ n.store.cells.size ∧
      (n.current.handlers = [] ∨ ∃ f rest op a b, m.Poises f rest op a b ∧ m.Finds n f rest op a b) := by
    cases frames : m.current.frames with
    | nil =>
      have handlers := h.current.2
      rw [frames] at handlers
      simp only [Exec.step, Exec.bind_apply, Exec.get_apply, frames, Exec.throw_apply] at step
      cases step
      exact ⟨.refl h.sane, Nat.le_refl _, Or.inl handlers⟩
    | cons f rest =>
      obtain ⟨op, a, b, poises⟩ := h.poises frames
      have finds := h.finds firm poises step
      have draws := poises.step_draws separate
      rw [step] at draws
      exact ⟨finds.alone, draws.cells, Or.inr ⟨f, rest, op, a, b, poises, finds⟩⟩
  have rooted := (h.sane.alone alone).rooted
  rcases exists_catcher n (n.running :: n.waiting) with bare |
    ⟨above, k, below, handler, outer, split, bare, handlers⟩
  · obtain ⟨threads, unwound, -, gone⟩ := unwind_bare rooted bare reason
    rw [unwound]
    by_cases mem : id ∈ n.running :: n.waiting
    · exact .dies (congrArg Thread.frames ((gone id).trans (if_pos mem)))
    · have away : id ≠ m.running := fun same => mem (by rw [same, alone.running]; exact List.mem_cons_self)
      exact .same away (((gone id).trans (if_neg mem)).trans (alone.others id inside away))
  · obtain ⟨m', unwound, lands⟩ := unwindFrom_lands rooted split bare handlers reason
    rw [unwound]
    by_cases dead : id ∈ above
    · exact .dies (by rw [lands.dead id dead])
    have new : ∀ x ∈ Array.range' n.store.cells.size (slots (handler.outermostWant outer)),
        m.store.cells.size ≤ x := fun x mem => by
      have := Array.mem_range'.1 mem
      omega
    by_cases here : id = k
    · subst here
      have back := lands.catcher
      by_cases itself : id = m.running
      · subst itself
        have same : n.thread m.running = n.current := by rw [← alone.running]; rfl
        rw [same] at back handlers
        rcases found with none' | ⟨f, rest, op, a, b, poises, finds⟩
        · rw [none'] at handlers
          cases handlers
        · exact finds.caught poises handlers back new
      · have same := alone.others id inside itself
        rw [same] at back handlers
        exact .caught itself (h.others id inside itself) handlers back new
    · have away : id ≠ m.running := by
        rintro rfl
        rw [alone.running] at split
        cases above with
        | nil => exact here (List.cons.inj split).1
        | cons j above => exact dead (by rw [(List.cons.inj split).1]; exact List.mem_cons_self)
      exact .same away ((lands.others id dead here).trans (alone.others id inside away))

/-! ## Steps -/

/-- A call of the running thread's instruction has gone on. -/
theorem Evolves.answered {f : Frame} {rest : List Frame} {op : Opcode} {a b : Nat} {t : Thread}
    (poises : m.Poises f rest op a b) (other : op ≠ .ret) (next : op.continues = true)
    (frames : t.frames = { f with ip := f.ip + 1 } :: rest)
    (stack : t.stack = m.current.stack.take (m.current.stack.size - op.touched a b))
    (answered : t.Answered (m'.thread m.running)) : m.Evolves m' m.running := by
  have size : t.stack.size = m.current.stack.size - op.touched a b := by
    rw [stack, Array.size_extract]
    omega
  have goes : f.ip + 1 ∈ Verifier.successors op a f.ip := Verifier.mem_successors.2 (Or.inl ⟨next, rfl⟩)
  have kept (old : ∀ i, i < t.stack.size → (m'.thread m.running).stack[i]? = t.stack[i]?) (i : Nat)
      (low : i < m.current.stack.size - op.touched a b) :
      (m'.thread m.running).stack[i]? = m.current.stack[i]? := by
    rw [old i (size ▸ low), stack, Array.getElem?_extract, if_pos (by omega), Nat.zero_add]
  cases answered with
  | more frames' captures le old =>
    exact .works rfl poises other goes (frames'.trans frames : _ = [] ++ _) (by simp) (size ▸ le) (kept old)
  | entered g g' frames' alike start captures le old =>
    have entered : (m'.thread m.running).frames = [g'] ++ { f with ip := f.ip + 1 } :: rest := by
      rw [frames', frames]
      rfl
    refine .works rfl poises other goes entered ?_ (size ▸ le) (kept old)
    intro k mem
    rw [List.mem_singleton.1 mem, alike.2.2.1, start.2.1, size]

/-- An instruction other than a return does one of the four things to a thread. -/
theorem Ordered.perform_evolves (h : m.Ordered Thread.Active) {f : Frame} {rest : List Frame} {op : Opcode}
    {a b : Nat} (poises : m.Poises f rest op a b) (other : op ≠ .ret) {u : Unit}
    (done : Exec.perform f.closure op a b m.advance = .ok u m') (inside : id < m.threads.size) :
    m.Evolves m' id := by
  by_cases itself : id = m.running
  · subst itself
    obtain ⟨captured, d, poised⟩ := poises.poised
    have thread := poises.thread
    have result := performed poised other
    simp only at result
    rw [done] at result
    generalize same : EStateM.Result.ok u m' = r at result
    cases result with
    | raises => cases same
    | @stays k pushed captures ip turns size closed list next =>
      cases same
      rw [thread] at turns
      have alone := (Alone.modifyCurrent h.sane (·.modifyFrame fun f => { f with ip := f.ip + 1 }) :
        m.Alone m.advance).trans h.sane turns.alone
      have here : m'.thread m.running = m'.current := by rw [← alone.running]; rfl
      have length : (m.current.stack.take (m.current.stack.size - op.touched a b)).size =
          m.current.stack.size - op.touched a b := by
        rw [Array.size_extract]
        omega
      have stack : (m'.thread m.running).stack =
          m.current.stack.take (m.current.stack.size - op.touched a b) ++ pushed := by rw [here, turns.thread]
      refine .works rfl poises other (Verifier.mem_successors.2 (next.imp And.symm And.symm))
        (by rw [here, turns.thread]; rfl : _ = [] ++ _) (by simp) ?_ fun i low => ?_
      · rw [stack, Array.size_append, length]
        omega
      · rw [stack, Array.getElem?_append_left (lt_of_lt_of_eq low length.symm),
          Array.getElem?_extract, if_pos (by omega), Nat.zero_add]
    | @calls m₁ callee args want r asked turns dropped size closed next called =>
      have sane := poised.sane.alone turns.alone
      rw [thread] at turns
      have frames : (m₁.thread m.running).frames = { f with ip := f.ip + 1 } :: rest := by
        rw [show m.running = m₁.running from turns.alone.running.symm, show m₁.thread m₁.running = m₁.current from rfl,
          turns.thread]
      have stack : (m₁.thread m.running).stack =
          m.current.stack.take (m.current.stack.size - op.touched a b) := by
        rw [show m.running = m₁.running from turns.alone.running.symm, show m₁.thread m₁.running = m₁.current from rfl,
          turns.thread]
      obtain ⟨reply, out, -⟩ := Exec.call_outcome sane callee args want
      refine .answered poises other next frames stack ?_
      rcases called with rfl | ⟨rfl, rfl⟩
      · rw [← same] at out
        exact out.answered sane _
      · rw [Exec.bind_apply] at same
        cases made : Exec.call callee args 1 m₁ with
        | error fault m₂ =>
          rw [made] at same
          cases same
        | ok u₂ m₂ =>
          rw [made] at same out
          have judged : Exec.judge m₁.running (rest.length + 1) m₂ = .ok () m' := by
            rw [turns.alone.running]
            exact same.symm
          refine out.judged sane ?_ judged _
          rw [turns.thread]
          rfl
  · have proceeds := h.performs poises other
    rw [done] at proceeds
    rcases proceeds.others id inside itself with spares | ⟨vs, -, passed⟩
    · exact .same itself spares.thread
    · obtain ⟨m₀, -, got, -⟩ := passed.delivery
      exact .receive itself got

/-- A return does one of the four things to a thread. -/
theorem Ordered.return_evolves (h : m.Ordered Thread.Active) {f : Frame} {rest : List Frame} {a b : Nat}
    (poises : m.Poises f rest .ret a b) {r : Option (List Value)} (step : Exec.step m = .ok r m')
    (inside : id < m.threads.size) : m.Evolves m' id := by
  have turns := Turns.drop (advance_ordered h).sane a
  rw [poises.thread] at turns
  have frames : (m.advance.drop a).current.frames = { f with ip := f.ip + 1 } :: rest := by rw [turns.thread]
  have alone := h.asks_alone a
  have sane := h.sane.alone alone
  have left : m.Alone ((m.advance.drop a).modifyCurrent (Frame.leave { f with ip := f.ip + 1 } rest)) :=
    alone.trans h.sane (.modifyCurrent sane _)
  have here : ((m.advance.drop a).modifyCurrent (Frame.leave { f with ip := f.ip + 1 } rest)).current =
      Frame.leave { f with ip := f.ip + 1 } rest m.current := by
    rw [current_modifyCurrent sane.running_lt, turns.thread]
    have low := poises.touched_le
    simp only [Opcode.touched, Opcode.operands] at low
    simp [Frame.leave, Nat.min_eq_left (show f.base ≤ m.current.stack.size - a by omega)]
  have store : ((m.advance.drop a).modifyCurrent (Frame.leave { f with ip := f.ip + 1 } rest)).store = m.store := rfl
  rw [poises.returns rfl] at step
  simp only [Exec.bind_apply, Exec.popSpread_eq] at step
  rcases Exec.returnFrom_cases frames (m.advance.spread a) with ⟨-, done⟩ | ⟨rfl, -, done⟩ |
    ⟨rfl, resumer, others, waiting, done⟩ <;> rw [done] at step <;> cases step <;>
    generalize (m.advance.drop a).modifyCurrent (Frame.leave _ _) = n at left here store <;>
    have inside' := (h.sane.alone left).running_lt
  · by_cases itself : id = m.running
    · subst itself
      have now : (n.pushResults f.want (({ f with ip := f.ip + 1 } : Frame).pays (m.advance.spread a))).thread m.running =
          n.current.withCells m.store.cells.size (slots f.want) := by
        rw [← left.running, pushResults, thread_pushResultsOn_self inside', store]
        rfl
      have low := poises.upright.rests.base_lt
      rw [here] at now
      have gone : m.current.frames = [f] ++ rest := poises.frames
      refine .cut gone (congrArg Thread.frames now) List.mem_cons_self (by simp) low.le
        ((congrArg Thread.stack now).trans ?_ : _ = _ ++ Array.range' m.store.cells.size (slots f.want)) ?_
      · simp only [Thread.withCells, Frame.leave, Array.shrink_eq_take]
        rfl
      · exact fun x mem => by
          have := Array.mem_range'.1 mem
          omega
    · exact .same itself ((thread_pushResultsOn_ne (by rw [left.running]; exact itself)).trans
        (left.others id inside itself))
  · by_cases itself : id = m.running
    · subst itself
      refine .dies ?_
      rw [← left.running, show n.thread n.running = n.current from rfl, here]
      rfl
    · exact .same itself (left.others id inside itself)
  · have waits : resumer ∈ m.waiting := by
      rw [← alone.waiting, waiting]
      exact List.mem_cons_self
    have other : resumer ≠ m.running := by
      rintro rfl
      exact (List.nodup_cons.1 h.sane.distinct).1 waits
    by_cases itself : id = m.running
    · subst itself
      refine .dies ((congrArg Thread.frames (thread_deliver_ne (Ne.symm other))).trans ?_)
      rw [← left.running, show n.thread n.running = n.current from rfl, here]
      rfl
    · by_cases gets : id = resumer
      · subst gets
        have got : (n.deliver id (.boolean true ::
            ({ f with ip := f.ip + 1 } : Frame).pays (m.advance.spread a))).thread id =
            (n.thread id).receive n.store.cells.size := thread_deliver_self (Nat.lt_of_lt_of_le inside left.size)
        rw [left.others id inside itself] at got
        exact .receive itself got
      · exact .same itself ((thread_deliver_ne gets).trans (left.others id inside itself))

/-- A move does one of the four things to a thread. -/
theorem Ordered.moves_evolve (h : m.Ordered Thread.Active) (separate : m.Separate) (firm : ¬m.Slips)
    (moves : m.Moves m') (inside : id < m.threads.size) : m.Evolves m' id := by
  cases moves with
  | fault step => exact h.fault_evolves separate firm step inside _
  | step step =>
    cases frames : m.current.frames with
    | nil =>
      simp only [Exec.step, Exec.bind_apply, Exec.get_apply, frames, Exec.throw_apply] at step
      cases step
    | cons f rest =>
      obtain ⟨op, a, b, poises⟩ := h.poises frames
      by_cases ret : op = .ret
      · subst ret
        exact h.return_evolves poises step inside
      · rw [poises.performs ret, Exec.bind_apply] at step
        cases done : Exec.perform f.closure op a b m.advance with
        | error fault m₁ =>
          rw [done] at step
          cases step
        | ok u m₁ =>
          rw [done] at step
          cases step
          exact h.perform_evolves poises ret done inside

end Machine

end ScriptEngine
