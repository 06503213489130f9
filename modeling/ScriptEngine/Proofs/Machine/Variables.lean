import ScriptEngine.Proofs.Machine.Capture

/-!
# Cells of variables

In a machine that is `Scoped` the cells of all slots are apart, all frames mind the charts of their units, and
nobody knows the cells of slots that are no local's. So it stays (`Scoped.happens`), and a cell that has once been
a variable's is never again that of a slot which is none (`Used.happens`): the cells that are closed over next are
new to everyone.
-/

set_option linter.dupNamespace false

namespace ScriptEngine

namespace Machine

variable {m m' m'' : Machine} {f : Frame} {rest : List Frame} {op : Opcode} {a b x : Nat}

/-- The cells of all slots are apart, the frames mind the charts of their units, and the cells of slots that are
no local's are known by their slots only. -/
structure Scoped (m : Machine) : Prop where
  separate : m.Separate
  minded : ∀ id, (m.thread id).Minded
  hidden : ∀ id i x, m.Slot id i x → (m.thread id).Temporary i → ¬m.Shared x

/-- The cell has been that of a variable: there is no slot that has it and is none. -/
structure Used (m : Machine) (x : Nat) : Prop where
  known : x < m.store.cells.size
  taken : ∀ id i, m.Slot id i x → ¬(m.thread id).Temporary i

/-- The instruction that closes over slots does nothing else. -/
theorem Poises.closes (h : m.Ordered Thread.Active) (poises : m.Poises f rest .closeVars a b) :
    ∃ m', Exec.step m = .ok none m' ∧ m'.running = m.running ∧ m'.store = m.store ∧ m'.current = { m.current with
      captures := m.current.captures ++ m.current.stack.extract (m.current.stack.size - a) m.current.stack.size
      frames := { f with ip := f.ip + 1 } :: rest } := by
  have inside : m.advance.running < m.advance.threads.size :=
    (h.sane.alone (.modifyCurrent h.sane (·.modifyFrame fun f => { f with ip := f.ip + 1 }))).running_lt
  have touched := poises.touched_le
  simp only [Opcode.touched, Opcode.operands] at touched
  have thread := poises.thread
  have enough : ¬m.advance.current.stack.size < a := by
    rw [thread]
    simp only
    omega
  refine ⟨m.advance.modifyCurrent fun t =>
    { t with captures :=
        t.captures ++ t.stack.extract (m.advance.current.stack.size - a) m.advance.current.stack.size },
    ?_, rfl, rfl, ?_⟩
  · rw [poises.performs (by simp)]
    simp only [Exec.perform, Exec.closeVars, Exec.bind_apply, Exec.get_apply, if_neg enough, Exec.modify_apply,
      Exec.pure_apply]
  · rw [current_modifyCurrent inside, thread]

namespace Scoped

/-- The cells over which the next instruction closes are those of the slots on top. -/
theorem bound (bound : m.nextDeeds.binds x) : ∃ a b, m.next? = some (.closeVars, a, b) ∧
    ∃ i, m.Slot m.running i x ∧ m.current.stack.size ≤ i + a := by
  unfold nextDeeds at bound
  split at bound
  · rename_i op a b next
    obtain ⟨rfl, mem⟩ := bound
    obtain ⟨i, inside, rfl⟩ := Array.mem_iff_getElem.1 mem
    refine ⟨a, b, next, m.current.stack.size - a + i, ?_, by omega⟩
    simp only [Array.size_extract] at inside
    rw [Slot, Array.getElem_extract]
    exact Array.getElem?_eq_getElem _
  · exact bound.elim

/-- The cells that have just been closed over are those of locals. -/
theorem moves_bound (h : m.Scoped) (ordered : m.Ordered Thread.Active) (moves : m.Moves m')
    (binds : m.nextDeeds.binds x) : ∃ id i, m.Slot id i x ∧ ¬(m'.thread id).Temporary i := by
  obtain ⟨a, b, next, i, slot, high⟩ := bound binds
  refine ⟨m.running, i, slot, fun temporary => ?_⟩
  have low : i < m.current.stack.size := slot.lt
  cases frames : m.current.frames with
  | nil => simp [next?, frames] at next
  | cons f rest =>
    obtain ⟨op, a', b', poises⟩ := ordered.poises frames
    rw [poises.instruction] at next
    cases next
    obtain ⟨m₁, step, running, -, thread⟩ := poises.closes ordered
    obtain rfl : m' = m₁ := by
      cases moves with
      | step done =>
        rw [step] at done
        cases done
        rfl
      | fault done =>
        rw [step] at done
        cases done
    have touched := poises.touched_le
    simp only [Opcode.touched, Opcode.operands] at touched
    rw [show m'.thread m.running = m'.current by rw [← running]; rfl, thread] at temporary
    have minded := h.minded m.running
    rw [show m.thread m.running = m.current from rfl, Thread.Minded, frames] at minded
    have := ScriptEngine.Temporary.not_bound poises.holds poises.upright.rests
      (Verifier.mem_successors.2 (Or.inl ⟨rfl, rfl⟩)) low touched minded.2.2.2 temporary
    omega

/-- What comes next carries locals along, and closes over slots of locals only. -/
theorem carries (h : m.Scoped) (ordered : m.Ordered Thread.Active) (discreet : ∀ f ∈ m'.hosts, f.Discreet)
    (next : m.Happens Doubles m') : ∃ d, Carries d m m' ∧
      ∀ x, d.binds x → ∃ id i, m.Slot id i x ∧ ¬(m'.thread id).Temporary i := by
  rcases next.moves_or_carries ordered h.separate discreet with ⟨free, moves⟩ | carries
  · obtain ⟨d, carries, binds⟩ := ordered.moves_carries free h.separate moves
    exact ⟨d, carries, fun x bound => h.moves_bound ordered moves (binds x bound)⟩
  · exact ⟨.none, carries, fun x => False.elim⟩

/-- Whatever happens, the machine stays so. -/
theorem happens (h : m.Scoped) (ordered : m.Ordered Thread.Active) (discreet : ∀ f ∈ m'.hosts, f.Discreet)
    (next : m.Happens Doubles m') : m'.Scoped := by
  obtain ⟨d, carries, binds⟩ := h.carries ordered discreet next
  refine ⟨carries.draws.separate, fun id => carries.minded id (h.minded id), fun id i x slot temporary known => ?_⟩
  rcases carries.draws.shared x known with known | bound
  · rcases carries.draws.slots id i x slot with old | new
    · exact h.hidden id i x old (carries.temporary id i x (h.minded id) old slot temporary) known
    · have := h.separate.shared x known
      omega
  · obtain ⟨id', i', old, taken⟩ := binds x bound
    rcases carries.draws.slots id i x slot with slot | new
    · obtain ⟨rfl, rfl⟩ := h.separate.single _ _ _ _ x slot old
      exact taken temporary
    · have := h.separate.slots _ _ x old
      omega

/-- A cell that is known beyond its slot is a variable's. -/
theorem used (h : m.Scoped) (shared : m.Shared x) : m.Used x :=
  ⟨h.separate.shared x shared, fun id i slot temporary => h.hidden id i x slot temporary shared⟩

end Scoped

/-- What has been a variable's cell is never again that of a slot which is none. -/
theorem Used.happens (used : m.Used x) (h : m.Scoped) (ordered : m.Ordered Thread.Active)
    (discreet : ∀ f ∈ m'.hosts, f.Discreet) (next : m.Happens Doubles m') : m'.Used x := by
  obtain ⟨d, carries, -⟩ := h.carries ordered discreet next
  refine ⟨Nat.lt_of_lt_of_le used.known carries.draws.cells, fun id i slot temporary => ?_⟩
  rcases carries.draws.slots id i x slot with old | new
  · exact used.taken id i old (carries.temporary id i x (h.minded id) old slot temporary)
  · have := used.known
    omega

/-! ## Runs -/

theorem Blank.scoped (h : m.Blank) (discreet : ∀ f ∈ m.hosts, f.Discreet) : m.Scoped := by
  have blank (id : Nat) : m.thread id = {} := by
    rw [thread, h.threads]
    cases id <;> rfl
  refine ⟨h.separate discreet, fun id => ?_, fun id i x slot => ?_⟩
  · rw [blank]
    trivial
  · simp [Slot, blank] at slot

/-- All states of a machine with a discreet host are so. -/
theorem Reachable.scoped (h : m.Reachable Doubles) (discreet : ∀ f ∈ m.hosts, f.Discreet) : m.Scoped := by
  revert discreet
  refine Reachable.of_happens (P := fun m => (∀ f ∈ m.hosts, f.Discreet) → m.Scoped)
    (fun config => (Blank.machine config).scoped) (fun m m' reach ih next discreet => ?_) h
  exact (ih fun f mem => discreet f (next.hosts reach.in_order f mem)).happens reach.in_order discreet next

/-- A cell that was known beyond its slot at some time is a variable's ever after. -/
theorem Reachable.used (h : m.Reachable Doubles) (run : Relation.ReflTransGen (Happens Doubles) m m')
    (discreet : ∀ f ∈ m'.hosts, f.Discreet) (shared : m.Shared x) : m'.Used x := by
  suffices stays : m'.Reachable Doubles ∧ ((∀ f ∈ m'.hosts, f.Discreet) → m'.Used x) from stays.2 discreet
  clear discreet
  induction run with
  | refl => exact ⟨h, fun discreet => (h.scoped discreet).used shared⟩
  | tail run next ih =>
    obtain ⟨reach, ih⟩ := ih
    refine ⟨reach.happens next, fun discreet' => ?_⟩
    have discreet := fun f mem => discreet' f (next.hosts reach.in_order f mem)
    exact (ih discreet).happens (reach.scoped discreet) reach.in_order discreet' next

/-- The cell of a slot that is no local's has never been known beyond it. -/
theorem Reachable.unused (h : m.Reachable Doubles) (run : Relation.ReflTransGen (Happens Doubles) m m')
    (discreet : ∀ f ∈ m'.hosts, f.Discreet) {id i : Nat} (slot : m'.Slot id i x)
    (temporary : (m'.thread id).Temporary i) : ¬m.Shared x :=
  fun shared => (h.used run discreet shared).taken id i slot temporary

end Machine

end ScriptEngine
