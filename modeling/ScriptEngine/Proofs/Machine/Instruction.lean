import ScriptEngine.Proofs.Machine.Outcome

/-!
# What an instruction does

An instruction that is legal where it stands does one of three things (`Performed`): it puts new slots
in the place of its operands and goes on, it raises a fault, or it calls a value (`request?`) with its
operands taken away. This is proved once for every opcode (`performed`); whatever is said about steps of
the machine is derived from it.
-/

set_option linter.dupNamespace false

namespace ScriptEngine

theorem pop_eq_take {α : Type} (xs : Array α) : xs.pop = xs.take (xs.size - 1) := by
  simp

theorem take_append_extract {α : Type} (xs : Array α) (n : Nat) :
    xs.take n ++ xs.extract n xs.size = xs := by
  rw [Array.extract_append_extract]
  by_cases inside : n ≤ xs.size
  · simp [Nat.max_eq_right inside]
  · simp [Nat.max_eq_left (Nat.le_of_not_le inside)]
    exact Or.inr (Nat.le_of_not_le inside)

namespace Opcode

/-- The number of slots on top that an instruction may put others in the place of. -/
def touched (op : Opcode) (a b : Nat) : Nat :=
  match op with
  | popVarArgs => max 1 b
  | _ => op.operands a b

theorem touched_le_operands (op : Opcode) (a b : Nat) : op.touched a b ≤ op.operands a b + 1 := by
  unfold touched
  split
  · simp only [operands]
    omega
  · omega

/-- The operator of an arithmetic instruction. -/
def arithmetic? : Opcode → Option Arithmetic
  | add => some .add
  | sub => some .sub
  | mul => some .mul
  | div => some .div
  | mod => some .mod
  | pow => some .pow
  | _ => none

attribute [grind =] touched arithmetic?

/-- The closure list after an instruction. -/
def closing (op : Opcode) (a : Nat) (stack captures : Array Nat) : Array Nat :=
  match op with
  | closeVars => captures ++ stack.extract (stack.size - a) stack.size
  | popClosed => captures.shrink (captures.size - a)
  | _ => captures

/-- An instruction without effect on the depth of the closure list leaves it alone. -/
theorem closing_eq {op : Opcode} {a : Nat} (none' : Instruction.closedEffect op a = 0)
    (stack captures : Array Nat) : op.closing a stack captures = captures := by
  cases op <;> simp_all [closing, Instruction.closedEffect]

end Opcode

namespace Machine

variable {m m' : Machine}

/-- The value `i` slots below the top, the top itself being at 1. -/
def top (m : Machine) (i : Nat) : Value := ((m.current.cell? i).map m.store.cell).getD .nil

/-- The machine without the top `n` slots of the running thread. -/
def drop (m : Machine) (n : Nat) : Machine :=
  m.modifyCurrent fun t => { t with stack := t.stack.take (t.stack.size - n) }

@[simp] theorem store_drop (n : Nat) : (m.drop n).store = m.store := rfl

theorem current_drop (h : m.running < m.threads.size) (n : Nat) : (m.drop n).current =
    { m.current with stack := m.current.stack.take (m.current.stack.size - n) } :=
  current_modifyCurrent h

theorem drop_drop (m : Machine) (j k : Nat) : (m.drop j).drop k = m.drop (j + k) := by
  show (m.modifyThread m.running _).modifyThread m.running _ = m.modifyThread m.running _
  rw [modifyThread_modifyThread]
  apply modifyThread_congr
  simp only [Function.comp, Array.size_extract, Thread.mk.injEq, and_true]
  refine Array.extract_extract.trans ?_
  congr 1
  omega

theorem top_drop (h : m.running < m.threads.size) (i j : Nat) :
    (m.drop j).top (i + 1) = m.top (i + 1 + j) := by
  unfold top Thread.cell?
  rw [current_drop h, store_drop]
  simp only [Array.size_extract, Nat.sub_zero]
  by_cases inside : i + 1 + j ≤ m.current.stack.size
  · rw [if_pos (by omega), if_pos inside, Array.getElem?_extract]
    rw [if_pos (by omega)]
    congr 3
    omega
  · rw [if_neg (by omega), if_neg inside]

theorem metamethod_drop (m : Machine) (n : Nat) (v : Value) (event : String) :
    (m.drop n).metamethod v event = m.metamethod v event := rfl

/-- The values in the top `n` slots, the oldest first, with multi-values expanded. -/
def spread (m : Machine) (n : Nat) : List Value :=
  (m.current.stack.extract (m.current.stack.size - n) m.current.stack.size).toList.flatMap
    fun cell => (m.store.cell cell).spread

/-- The handler that either operand has for an event. -/
def handler? (m : Machine) (event : String) (lhs rhs : Value) : Option Value :=
  match m.metamethod lhs event with
  | .error _ => none
  | .ok first =>
    if first.isNil then
      match m.metamethod rhs event with
      | .error _ => none
      | .ok second => if second.isNil then none else some second
    else some first

/-- The value that an instruction calls, its arguments and the number of results it wants. -/
def request? (m : Machine) (op : Opcode) (a b : Nat) : Option (Value × List Value × Nat) :=
  let binary event := (m.handler? event (m.top 2) (m.top 1)).map (·, [m.top 2, m.top 1], 1)
  let unary event := (m.handler? event (m.top 1) (m.top 1)).map (·, [m.top 1, m.top 1], 1)
  match op with
  | .call => some (m.top (a + 1), m.spread a, b)
  | .neg => if (m.top 1).number?.isSome then none else unary "__unm"
  | .len => unary "__len"
  | .concat => if ((m.top 2).concat? (m.top 1)).isSome then none else binary "__concat"
  | .less => if ((m.top 2).less? (m.top 1)).isSome then none else binary "__lt"
  | .lessEq => if ((m.top 2).lessEq? (m.top 1)).isSome then none else binary "__le"
  | _ =>
    match op.arithmetic? with
    | some operator =>
      if (m.top 2).number?.isSome ∧ (m.top 1).number?.isSome then none else binary operator.event
    | none => none

/-- The next instruction with its operands. -/
def next? (m : Machine) : Option (Opcode × Nat × Nat) := do
  let frame ← m.current.frames.head?
  let ins ← frame.closure.unit.code[frame.ip]?
  let op ← ins.opcode?
  some (op, ins.a.toNat, ins.b.toNat)

/-- The call that the next instruction makes. -/
def nextCall? (m : Machine) : Option (Value × List Value × Nat) :=
  m.next?.bind fun (op, a, b) => m.request? op a b

attribute [grind =] request? next? nextCall?

/-- From `m` only the running thread's state has changed, to `t`, and the store. -/
structure Turns (m m' : Machine) (t : Thread) : Prop where
  alone : m.Alone m'
  thread : m'.current = t

namespace Turns

variable {t : Thread}

theorem refl (h : m.Sane) : m.Turns m m.current := ⟨.refl h, rfl⟩

theorem modify (h : m.Sane) (turns : m.Turns m' t) (f : Thread → Thread) :
    m.Turns (m'.modifyCurrent f) (f t) := by
  have sane := h.alone turns.alone
  refine ⟨.trans h turns.alone (.modifyCurrent sane f), ?_⟩
  rw [current_modifyCurrent sane.running_lt, turns.thread]

theorem push (h : m.Sane) (turns : m.Turns m' t) (v : Value) :
    m.Turns (m'.push v) { t with stack := t.stack.push m'.store.cells.size } := by
  have sane := h.alone turns.alone
  refine ⟨.trans h turns.alone (.pushResults sane 1 [v]), ?_⟩
  rw [push_eq_pushResults, current_pushResults sane.running_lt, turns.thread]
  simp [Thread.withCells, slots]

theorem drop (h : m.Sane) (n : Nat) : m.Turns (m.drop n)
    { m.current with stack := m.current.stack.take (m.current.stack.size - n) } :=
  (refl h).modify h _

theorem withStore (h : m.Sane) (turns : m.Turns m' t) {s : Store}
    (closures : ∀ c ∈ s.closures, c ∈ m'.store.closures ∨ c.Fits) :
    m.Turns { m' with store := s } t := by
  refine ⟨.trans h turns.alone (.store _ fun c mem => ?_), turns.thread⟩
  exact (closures c mem).elim ((h.alone turns.alone).closures c) id

theorem withGlobals (turns : m.Turns m' t) (name : String) (v : Value) :
    m.Turns (m'.setGlobal name v) t :=
  ⟨{ turns.alone with }, turns.thread⟩

end Turns

end Machine

namespace Exec

variable {m : Machine}

theorem pop_apply (m : Machine) : pop m = .ok (m.top 1) (m.drop 1) := by
  have machine : (m.modifyCurrent fun t => { t with stack := t.stack.pop }) = m.drop 1 := by
    simp only [Machine.drop, pop_eq_take]
  have value : m.top 1 = (m.current.stack.back?.map m.store.cell).getD .nil := by
    have offset : m.current.cell? 1 = m.current.stack.back? := by
      simp only [Thread.cell?, Array.back?]
      split
      · rfl
      · rw [Array.getElem?_eq_none (by omega)]
    rw [Machine.top, offset]
  simp only [pop, bind_apply, get_apply, modify_apply, machine, pure_apply, value]
  cases m.current.stack.back? <;> rfl

theorem popSpread_eq (n : Nat) (m : Machine) : popSpread n m = .ok (m.spread n) (m.drop n) := by
  rw [popSpread_apply]
  congr 1
  apply Machine.modifyThread_congr
  simp only [Array.shrink_eq_take, Machine.current]

theorem slot_apply {n cell : Nat} (found : m.current.cell? n = some cell) :
    slot n m = .ok cell m := by
  simp only [slot, bind_apply, get_apply, found, pure_apply]

theorem peek_apply {n cell : Nat} (found : m.current.cell? n = some cell) :
    peek n m = .ok (m.store.cell cell) m := by
  simp only [peek, bind_apply, slot_apply found, get_apply, pure_apply]

/-- Two operands are popped, the right one first. -/
theorem pop_pop (h : m.running < m.threads.size) {α : Type} (f : Value → Value → Exec α) :
    (do let rhs ← pop; let lhs ← pop; f lhs rhs : Exec α) m = f (m.top 2) (m.top 1) (m.drop 2) := by
  simp only [bind_apply, pop_apply, Machine.top_drop h, Machine.drop_drop]

theorem arithmetic_apply (h : m.running < m.threads.size) (operator : Arithmetic) :
    arithmetic operator m = match (m.top 2).number?, (m.top 1).number? with
      | some x, some y => .ok () ((m.drop 2).push (.number (operator.apply x y)))
      | lhs, _ => callMetamethod operator.event (m.top 2) (m.top 1)
          (.arithmetic (if lhs.isNone then (m.top 2).typeName else (m.top 1).typeName)) (m.drop 2) := by
  rw [arithmetic, pop_pop h]
  generalize m.top 2 = lhs
  generalize m.top 1 = rhs
  cases lhs <;> cases rhs <;> rfl

theorem negate_apply (m : Machine) : negate m = match (m.top 1).number? with
    | some n => .ok () ((m.drop 1).push (.number (-n)))
    | none => callMetamethod "__unm" (m.top 1) (m.top 1) (.arithmetic (m.top 1).typeName) (m.drop 1) := by
  simp only [negate, bind_apply, pop_apply]
  cases m.top 1 <;> rfl

theorem concat_apply (h : m.running < m.threads.size) :
    concat m = match (m.top 2).concat? (m.top 1) with
      | some s => .ok () ((m.drop 2).push (.string s))
      | none => callMetamethod "__concat" (m.top 2) (m.top 1)
          (.concat (if (m.top 2).piece?.isSome then (m.top 1).typeName else (m.top 2).typeName))
          (m.drop 2) := by
  rw [concat, pop_pop h]
  cases (m.top 2).concat? (m.top 1) <;> rfl

/-- The length of a value without a handler for it. -/
def measure? (m : Machine) : Value → Option Nat
  | .string s => some s.utf8ByteSize
  | .table id => some (m.store.table id).length
  | _ => none

theorem length_apply (m : Machine) : length m = match m.metamethod (m.top 1) "__len" with
    | .error fault => .error fault (m.drop 1)
    | .ok handler =>
      if handler.isNil then
        match measure? m (m.top 1) with
        | some n => .ok () ((m.drop 1).push (.number (Float.ofNat n)))
        | none => .error (.length (m.top 1).typeName) (m.drop 1)
      else call handler [m.top 1, m.top 1] 1 (m.drop 1) := by
  simp only [length, bind_apply, pop_apply, get_apply, Machine.metamethod_drop]
  cases m.metamethod (m.top 1) "__len" with
  | error fault => rfl
  | ok handler =>
    simp only [ofExcept_ok]
    by_cases missing : handler.isNil = true
    · simp only [if_pos missing]
      cases m.top 1 <;> rfl
    · simp only [if_neg missing]

end Exec

theorem Thread.cell?_isSome {t : Thread} {n : Nat} (low : 1 ≤ n) (high : n ≤ t.stack.size) :
    ∃ cell, t.cell? n = some cell := by
  refine ⟨t.stack[t.stack.size - n], ?_⟩
  rw [Thread.cell?, if_pos high, Array.getElem?_eq_getElem]

/-- The rest of a comparison that a handler decides: its result becomes a truth value. -/
def Exec.judge (running frames : Nat) : Exec Unit := do
  let m ← get
  if m.running = running then
    if frames < m.current.frames.length then
      set (m.modifyCurrent (·.modifyFrame ({ · with isCondition := true })))
    else
      let result ← pop
      push (.boolean result.isTruthy)

/-- Whether a fault is one of those that no compiled program raises. -/
def Fault.isDefect : Fault → Bool
  | .defect _ => true
  | .located _ _ inner => inner.isDefect
  | _ => false

theorem Store.lookup_own {s : Store} {id limit : Nat} {key : Value} {fault : Fault}
    (h : s.lookup id key limit = .error fault) : fault.isDefect = false := by
  unfold Store.lookup at h
  cases found : s.chainValue? key (limit + 1) id with
  | some v => rw [found] at h; cases h
  | none => rw [found] at h; cases h; rfl

theorem Machine.metamethod_own {m : Machine} {v : Value} {event : String} {fault : Fault}
    (h : m.metamethod v event = .error fault) : fault.isDefect = false := by
  unfold Machine.metamethod at h
  cases found : m.store.metatable? v with
  | some id => rw [found] at h; exact Store.lookup_own h
  | none => rw [found] at h; cases h

theorem Key.ofValue_own {v : Value} {fault : Fault} (h : Key.ofValue v = .error fault) :
    fault.isDefect = false := by
  cases v with
  | nil | multi => cases h; rfl
  | number n =>
    rw [Key.ofValue] at h
    split at h
    · cases h
      rfl
    · cases h
  | _ => cases h

/-- What comes of an instruction in the innermost frame `F` on top of `rest`. -/
inductive Performed (m : Machine) (F : Frame) (rest : List Frame) (op : Opcode) (a b : Nat) :
    EStateM.Result Fault Machine Unit → Prop where
  | stays {m' : Machine} {pushed captures : Array Nat} {ip : Nat}
      (turns : m.Turns m' { m.current with
        stack := m.current.stack.take (m.current.stack.size - op.touched a b) ++ pushed
        captures
        frames := { F with ip } :: rest })
      (size : (pushed.size : Int) = op.touched a b + Instruction.stackEffect op a b)
      (closed : (captures.size : Int) = m.current.captures.size + Instruction.closedEffect op a)
      (list : captures = op.closing a m.current.stack m.current.captures)
      (next : (ip = F.ip ∧ op.continues = true) ∨ (ip = a ∧ op.isJump = true)) :
      Performed m F rest op a b (.ok () m')
  | raises {m' : Machine} {size : Nat} {fault : Fault} (low : m.current.stack.size - op.touched a b ≤ size)
      (high : size ≤ m.current.stack.size)
      (turns : m.Turns m' { m.current with stack := m.current.stack.take size })
      (own : fault.isDefect = false) : Performed m F rest op a b (.error fault m')
  | calls {m' : Machine} {callee : Value} {args : List Value} {want : Nat}
      {r : EStateM.Result Fault Machine Unit} (asked : m.request? op a b = some (callee, args, want))
      (turns : m.Turns m' { m.current with
        stack := m.current.stack.take (m.current.stack.size - op.touched a b) })
      (same : m' = m.drop (op.touched a b))
      (size : (slots want : Int) = op.touched a b + Instruction.stackEffect op a b)
      (closed : Instruction.closedEffect op a = 0) (next : op.continues = true)
      (called : r = Exec.call callee args want m' ∨ want = 1 ∧
        r = (do Exec.call callee args want; Exec.judge m.running (rest.length + 1)) m') :
      Performed m F rest op a b r

/-- The innermost frame `F`, whose address has been moved past it already, is about to perform a legal
instruction. -/
structure Poised (m : Machine) (F : Frame) (rest : List Frame) (captured : Nat → Nat) (d : Depths)
    (op : Opcode) (a b : Nat) : Prop where
  sane : m.Sane
  frames : m.current.frames = F :: rest
  legal : Legal F.closure.unit F.closure.upvalues.size captured op a b d
  nested : ∀ c ∈ F.closure.unit.children, Layout (captured c.id) c
  stack : (m.current.stack.size : Int) = F.base + d.depth
  captures : (m.current.captures.size : Int) = F.captureBase + F.closure.upvalues.size + d.closed

namespace Poised

variable {m m' : Machine} {F : Frame} {rest : List Frame} {captured : Nat → Nat} {d : Depths}
  {op : Opcode} {a b : Nat}

/-- What an instruction touches lies above the frame's base. -/
theorem touched_le (h : Poised m F rest captured d op a b) :
    F.base + op.touched a b ≤ m.current.stack.size := by
  have enough := h.legal.operands
  have stack := h.stack
  have touched := op.touched_le_operands a b
  omega

theorem thread_eq (h : Poised m F rest captured d op a b) (stack : Array Nat) :
    { m.current with stack } =
      { m.current with stack, captures := m.current.captures
                       frames := { F with ip := F.ip } :: rest } := by
  rw [← h.frames]

/-- The instruction put the slots `pushed` in the place of those it touched. -/
theorem goesOn (h : Poised m F rest captured d op a b) (pushed : Array Nat)
    (turns : m.Turns m' { m.current with
      stack := m.current.stack.take (m.current.stack.size - op.touched a b) ++ pushed })
    (size : (pushed.size : Int) = op.touched a b + Instruction.stackEffect op a b)
    (closed : Instruction.closedEffect op a = 0) (next : op.continues = true) :
    Performed m F rest op a b (.ok () m') := by
  rw [h.thread_eq] at turns
  exact .stays turns size (by rw [closed]; omega) (Opcode.closing_eq closed _ _).symm
    (Or.inl ⟨rfl, next⟩)

theorem pushes (h : Poised m F rest captured d op a b)
    (turns : m.Turns m' { m.current with
      stack := m.current.stack.take (m.current.stack.size - op.touched a b) })
    (size : 1 = op.touched a b + Instruction.stackEffect op a b)
    (closed : Instruction.closedEffect op a = 0) (next : op.continues = true) (v : Value) :
    Performed m F rest op a b (.ok () (m'.push v)) := by
  have pushed := turns.push h.sane v
  rw [Array.push_eq_append] at pushed
  exact h.goesOn _ pushed (by simpa using size) closed next

theorem takes (h : Poised m F rest captured d op a b)
    (turns : m.Turns m' { m.current with
      stack := m.current.stack.take (m.current.stack.size - op.touched a b) })
    (size : 0 = op.touched a b + Instruction.stackEffect op a b)
    (closed : Instruction.closedEffect op a = 0) (next : op.continues = true) :
    Performed m F rest op a b (.ok () m') :=
  h.goesOn #[] (by simpa using turns) (by simpa using size) closed next

/-- The instruction left the slots as they are. -/
theorem stands (h : Poised m F rest captured d op a b) {captures : Array Nat} {ip : Nat}
    (turns : m.Turns m' { m.current with captures, frames := { F with ip } :: rest })
    (size : Instruction.stackEffect op a b = 0)
    (closed : (captures.size : Int) = m.current.captures.size + Instruction.closedEffect op a)
    (list : captures = op.closing a m.current.stack m.current.captures)
    (next : (ip = F.ip ∧ op.continues = true) ∨ (ip = a ∧ op.isJump = true)) :
    Performed m F rest op a b (.ok () m') := by
  have enough := h.touched_le
  have whole := take_append_extract m.current.stack (m.current.stack.size - op.touched a b)
  refine .stays (?_ : m.Turns m' { m.current with
    stack := m.current.stack.take (m.current.stack.size - op.touched a b) ++
      m.current.stack.extract (m.current.stack.size - op.touched a b) m.current.stack.size
    captures, frames := { F with ip } :: rest }) ?_ closed list next
  · rw [whole]
    exact turns
  · rw [size, Array.size_extract]
    omega

/-- The instruction changed nothing but the closure list. -/
theorem closes (h : Poised m F rest captured d op a b) (captures : Array Nat)
    (turns : m.Turns m' { m.current with captures })
    (size : Instruction.stackEffect op a b = 0)
    (closed : (captures.size : Int) = m.current.captures.size + Instruction.closedEffect op a)
    (list : captures = op.closing a m.current.stack m.current.captures)
    (next : op.continues = true) : Performed m F rest op a b (.ok () m') := by
  refine h.stands ?_ size closed list (Or.inl ⟨rfl, next⟩)
  rw [show { F with ip := F.ip } :: rest = m.current.frames from h.frames.symm]
  exact turns

/-- The instruction failed before it changed the stack. -/
theorem fails (turns : m.Turns m' m.current) {fault : Fault} (own : fault.isDefect = false) :
    Performed m F rest op a b (.error fault m') := by
  refine .raises (Nat.sub_le _ _) (Nat.le_refl _) ?_ own
  simpa using turns

/-- The thread without the operands. -/
theorem dropped (h : Poised m F rest captured d op a b) {n : Nat} (touched : op.touched a b = n) :
    m.Turns (m.drop n) { m.current with
      stack := m.current.stack.take (m.current.stack.size - op.touched a b) } := by
  rw [touched]
  exact .drop h.sane n

/-! ## One lemma for each kind of instruction -/

open Exec

/-- Instructions that push a value. -/
theorem loads (h : Poised m F rest captured d op a b) (touched : op.touched a b = 0)
    (size : Instruction.stackEffect op a b = 1) (closed : Instruction.closedEffect op a = 0)
    (next : op.continues = true) (v : Value) : Performed m F rest op a b (.ok () (m.push v)) := by
  refine h.pushes ?_ (by rw [touched, size]; rfl) closed next v
  simpa [touched] using Machine.Turns.refl h.sane

theorem loadK (h : Poised m F rest captured d .loadK a b) :
    Performed m F rest .loadK a b (perform F.closure .loadK a b m) := by
  have found := Array.getElem?_eq_getElem (h.legal.constant rfl)
  simp only [perform, constant, found, bind_apply, pure_apply, push_apply]
  exact h.loads rfl rfl rfl rfl _

theorem getStack (h : Poised m F rest captured d .getStack a b) :
    Performed m F rest .getStack a b (perform F.closure .getStack a b m) := by
  have bounds := h.legal.read rfl
  have stack := h.stack
  obtain ⟨cell, found⟩ := Thread.cell?_isSome (t := m.current) bounds.1 (by omega)
  simp only [perform, bind_apply, peek_apply found, push_apply]
  exact h.loads rfl rfl rfl rfl _

theorem putStack (h : Poised m F rest captured d .putStack a b) :
    Performed m F rest .putStack a b (perform F.closure .putStack a b m) := by
  have bounds := h.legal.write rfl
  have stack := h.stack
  obtain ⟨cell, found⟩ := Thread.cell?_isSome (t := m.current) (n := a) (by omega) (by omega)
  simp only [perform, bind_apply, slot_apply found, pop_apply, setCell, modify_apply]
  exact h.takes ((h.dropped rfl).withStore h.sane fun c mem => Or.inl mem) rfl rfl rfl

theorem globalName_apply {u : CodeUnit} {name : String} (found : u.constants[a]? = some (.string name))
    (m : Machine) : globalName u a m = .ok name m := by
  simp only [globalName, constant, found, bind_apply, pure_apply]

theorem getGlobal (h : Poised m F rest captured d .getGlobal a b) :
    Performed m F rest .getGlobal a b (perform F.closure .getGlobal a b m) := by
  obtain ⟨name, found⟩ := h.legal.global (Or.inl rfl)
  simp only [perform, bind_apply, globalName_apply found, get_apply, push_apply]
  exact h.loads rfl rfl rfl rfl _

theorem putGlobal (h : Poised m F rest captured d .putGlobal a b) :
    Performed m F rest .putGlobal a b (perform F.closure .putGlobal a b m) := by
  obtain ⟨name, found⟩ := h.legal.global (Or.inr rfl)
  simp only [perform, bind_apply, globalName_apply found, pop_apply, modify_apply]
  exact h.takes ((h.dropped rfl).withGlobals _ _) rfl rfl rfl

theorem upvalue_apply {c : Closure} (inside : a < c.upvalues.size) (m : Machine) :
    upvalue c a m = .ok c.upvalues[a] m := by
  simp only [upvalue, Array.getElem?_eq_getElem inside, pure_apply]

theorem getUpval (h : Poised m F rest captured d .getUpval a b) :
    Performed m F rest .getUpval a b (perform F.closure .getUpval a b m) := by
  simp only [perform, bind_apply, upvalue_apply (h.legal.upvalue (Or.inl rfl)), get_apply, push_apply]
  exact h.loads rfl rfl rfl rfl _

theorem putUpval (h : Poised m F rest captured d .putUpval a b) :
    Performed m F rest .putUpval a b (perform F.closure .putUpval a b m) := by
  simp only [perform, bind_apply, pop_apply, upvalue_apply (h.legal.upvalue (Or.inr rfl)), setCell,
    modify_apply]
  exact h.takes ((h.dropped rfl).withStore h.sane fun c mem => Or.inl mem) rfl rfl rfl

theorem popStack (h : Poised m F rest captured d .popStack a b) :
    Performed m F rest .popStack a b (perform F.closure .popStack a b m) := by
  simp only [perform, modify_apply, Array.shrink_eq_take]
  exact h.takes (h.dropped rfl) (Int.add_right_neg a).symm rfl rfl

/-- A handler decides unless no operand has one or looking for it fails. -/
theorem callMetamethod_cases (event : String) (lhs rhs : Value) (fault : Fault) (m : Machine) :
    (∃ fault', callMetamethod event lhs rhs fault m = .error fault' m ∧
        (fault.isDefect = false → fault'.isDefect = false)) ∨
      ∃ handler, m.handler? event lhs rhs = some handler ∧
        callMetamethod event lhs rhs fault m = call handler [lhs, rhs] 1 m := by
  simp only [callMetamethod, Machine.handler?, bind_apply, get_apply]
  cases left : m.metamethod lhs event with
  | error fault' => exact Or.inl ⟨fault', rfl, fun _ => Machine.metamethod_own left⟩
  | ok first =>
    simp only [ofExcept_ok]
    by_cases missing : first.isNil = true
    · simp only [if_pos missing, bind_apply]
      cases right : m.metamethod rhs event with
      | error fault' => exact Or.inl ⟨fault', rfl, fun _ => Machine.metamethod_own right⟩
      | ok second =>
        simp only [ofExcept_ok]
        by_cases missing' : second.isNil = true
        · simp only [if_pos missing', throw_apply]
          exact Or.inl ⟨fault, rfl, id⟩
        · simp only [if_neg missing']
          exact Or.inr ⟨second, rfl, rfl⟩
    · simp only [if_neg missing, bind_apply, pure_apply]
      exact Or.inr ⟨first, rfl, rfl⟩

/-- An operator whose operands are gone and which a handler decides. -/
theorem metamethod (h : Poised m F rest captured d op a b) {n : Nat} (touched : op.touched a b = n)
    (size : 1 = op.touched a b + Instruction.stackEffect op a b)
    (closed : Instruction.closedEffect op a = 0) (next : op.continues = true)
    {event : String} {lhs rhs : Value}
    (asked : ∀ v, m.handler? event lhs rhs = some v → m.request? op a b = some (v, [lhs, rhs], 1))
    {fault : Fault} (own : fault.isDefect = false) :
    Performed m F rest op a b (callMetamethod event lhs rhs fault (m.drop n)) := by
  rcases callMetamethod_cases event lhs rhs fault (m.drop n) with
    ⟨fault', failed, own'⟩ | ⟨v, found, called⟩
  · rw [failed]
    exact .raises (Nat.le_refl _) (Nat.sub_le _ _) (h.dropped touched) (own' own)
  · exact .calls (asked v found) (h.dropped touched) (by rw [touched]) size closed next (Or.inl called)

theorem arithmetic (h : Poised m F rest captured d op a b) {operator : Arithmetic}
    (which : op.arithmetic? = some operator) :
    Performed m F rest op a b (Exec.arithmetic operator m) := by
  have touched : op.touched a b = 2 := by cases op <;> first | rfl | cases which
  have size : 1 = op.touched a b + Instruction.stackEffect op a b := by
    cases op <;> first | rfl | cases which
  have closed : Instruction.closedEffect op a = 0 := by cases op <;> first | rfl | cases which
  have next : op.continues = true := by cases op <;> first | rfl | cases which
  have asked (others : ¬((m.top 2).number?.isSome ∧ (m.top 1).number?.isSome)) v
      (found : m.handler? operator.event (m.top 2) (m.top 1) = some v) :
      m.request? op a b = some (v, [m.top 2, m.top 1], 1) := by
    unfold Machine.request?
    cases op <;> cases which <;> simp [Opcode.arithmetic?, others, found]
  rw [arithmetic_apply h.sane.running_lt]
  split
  · exact h.pushes (h.dropped touched) size closed next _
  · rename_i others
    refine h.metamethod touched size closed next (asked fun both => ?_) rfl
    obtain ⟨x, lhs⟩ := Option.isSome_iff_exists.1 both.1
    obtain ⟨y, rhs⟩ := Option.isSome_iff_exists.1 both.2
    exact others x y lhs rhs

theorem neg (h : Poised m F rest captured d .neg a b) :
    Performed m F rest .neg a b (perform F.closure .neg a b m) := by
  rw [perform, negate_apply]
  cases number : (m.top 1).number? with
  | some n => exact h.pushes (h.dropped rfl) rfl rfl rfl _
  | none =>
    exact h.metamethod rfl rfl rfl rfl (fun v found => by simp [Machine.request?, number, found]) rfl

theorem concat (h : Poised m F rest captured d .concat a b) :
    Performed m F rest .concat a b (perform F.closure .concat a b m) := by
  rw [perform, concat_apply h.sane.running_lt]
  cases text : (m.top 2).concat? (m.top 1) with
  | some s => exact h.pushes (h.dropped rfl) rfl rfl rfl _
  | none =>
    exact h.metamethod rfl rfl rfl rfl (fun v found => by simp [Machine.request?, text, found]) rfl

theorem len (h : Poised m F rest captured d .len a b) :
    Performed m F rest .len a b (perform F.closure .len a b m) := by
  have drops := h.dropped (n := 1) rfl
  rw [perform, length_apply]
  cases found : m.metamethod (m.top 1) "__len" with
  | error fault => exact .raises (Nat.le_refl _) (Nat.sub_le _ _) drops (Machine.metamethod_own found)
  | ok handler =>
    by_cases missing : handler.isNil = true
    · simp only [if_pos missing]
      cases measure? m (m.top 1) with
      | some n => exact h.pushes drops rfl rfl rfl _
      | none => exact .raises (Nat.le_refl _) (Nat.sub_le _ _) drops rfl
    · simp only [if_neg missing]
      have asked : m.request? .len a b = some (handler, [m.top 1, m.top 1], 1) := by
        simp [Machine.request?, Machine.handler?, found, missing]
      exact .calls asked drops rfl rfl rfl rfl (Or.inl rfl)

theorem eq (h : Poised m F rest captured d .eq a b) :
    Performed m F rest .eq a b (perform F.closure .eq a b m) := by
  rw [perform, pop_pop h.sane.running_lt]
  exact h.pushes (h.dropped rfl) rfl rfl rfl _

theorem not (h : Poised m F rest captured d .not a b) :
    Performed m F rest .not a b (perform F.closure .not a b m) := by
  simp only [perform, bind_apply, pop_apply]
  exact h.pushes (h.dropped rfl) rfl rfl rfl _

theorem and (h : Poised m F rest captured d .and a b) :
    Performed m F rest .and a b (perform F.closure .and a b m) := by
  rw [perform, pop_pop h.sane.running_lt]
  exact h.pushes (h.dropped rfl) rfl rfl rfl _

theorem or (h : Poised m F rest captured d .or a b) :
    Performed m F rest .or a b (perform F.closure .or a b m) := by
  rw [perform, pop_pop h.sane.running_lt]
  exact h.pushes (h.dropped rfl) rfl rfl rfl _

/-- A comparison by `test`, or else by a handler. -/
theorem comparison (h : Poised m F rest captured d op a b) (touched : op.touched a b = 2)
    (size : 1 = op.touched a b + Instruction.stackEffect op a b)
    (closed : Instruction.closedEffect op a = 0) (next : op.continues = true)
    {test : Value → Value → Option Bool} {event : String}
    (asked : test (m.top 2) (m.top 1) = none → ∀ v, m.handler? event (m.top 2) (m.top 1) = some v →
      m.request? op a b = some (v, [m.top 2, m.top 1], 1)) :
    Performed m F rest op a b (Exec.compare test event m) := by
  have drops := h.dropped touched
  rw [Exec.compare, pop_pop h.sane.running_lt]
  cases decided : test (m.top 2) (m.top 1) with
  | some result => exact h.pushes drops size closed next _
  | none =>
    simp only [bind_apply, get_apply]
    rcases callMetamethod_cases event (m.top 2) (m.top 1)
      (.compare (m.top 2).typeName (m.top 1).typeName) (m.drop 2) with
      ⟨fault, failed, own⟩ | ⟨v, found, called⟩
    · rw [failed]
      exact .raises (Nat.le_refl _) (Nat.sub_le _ _) drops (own rfl)
    · refine .calls (asked decided v found) drops (by rw [touched]) size closed next (Or.inr ⟨rfl, ?_⟩)
      have frames : (m.drop 2).current.frames.length = rest.length + 1 := by
        rw [drops.thread]
        simp [h.frames]
      rw [called, frames]
      simp only [bind_apply]
      rfl

theorem less (h : Poised m F rest captured d .less a b) :
    Performed m F rest .less a b (perform F.closure .less a b m) :=
  h.comparison rfl rfl rfl rfl fun other v found => by simp [Machine.request?, other, found]

theorem lessEq (h : Poised m F rest captured d .lessEq a b) :
    Performed m F rest .lessEq a b (perform F.closure .lessEq a b m) :=
  h.comparison rfl rfl rfl rfl fun other v found => by simp [Machine.request?, other, found]

theorem newTable (h : Poised m F rest captured d .newTable a b) :
    Performed m F rest .newTable a b (perform F.closure .newTable a b m) := by
  have turns : m.Turns { m with store := m.store.newTable.2 } m.current :=
    (Machine.Turns.refl h.sane).withStore h.sane fun c mem => Or.inl mem
  refine h.pushes (?_ : m.Turns { m with store := m.store.newTable.2 } _) rfl rfl rfl _
  simpa [Opcode.touched, Opcode.operands] using turns

/-- A read changes nothing. -/
theorem index_cases (target key : Value) (m : Machine) :
    (∃ v, index target key m = .ok v m) ∨
      ∃ fault, index target key m = .error fault m ∧ fault.isDefect = false := by
  have looked (id : Nat) : (∃ v, Exec.ofExcept (m.store.lookup id key m.config.maxChainDepth) m = .ok v m) ∨
      ∃ fault, Exec.ofExcept (m.store.lookup id key m.config.maxChainDepth) m = .error fault m ∧
        fault.isDefect = false := by
    cases found : m.store.lookup id key m.config.maxChainDepth with
    | ok v => exact Or.inl ⟨v, rfl⟩
    | error fault => exact Or.inr ⟨fault, rfl, Store.lookup_own found⟩
  simp only [index, bind_apply, get_apply]
  cases target with
  | table id => exact looked id
  | string s =>
    cases m.global "string" with
    | table id => exact looked id
    | _ => exact Or.inr ⟨_, rfl, rfl⟩
  | _ => exact Or.inr ⟨_, rfl, rfl⟩

theorem getTable (h : Poised m F rest captured d .getTable a b) :
    Performed m F rest .getTable a b (perform F.closure .getTable a b m) := by
  have drops := h.dropped (n := 2) rfl
  simp only [perform, bind_apply, pop_apply, Machine.top_drop h.sane.running_lt, Machine.drop_drop]
  rcases index_cases (m.top 2) (m.top 1) (m.drop 2) with ⟨v, found⟩ | ⟨fault, failed, own⟩
  · simp only [Nat.reduceAdd, found]
    exact h.pushes drops rfl rfl rfl _
  · simp only [Nat.reduceAdd, failed]
    exact .raises (Nat.le_refl _) (Nat.sub_le _ _) drops own

/-- A write changes no closure. -/
theorem write_cases (id : Nat) (key value : Value) (m : Machine) :
    (∃ tables, write id key value m = .ok () { m with store := { m.store with tables } }) ∨
      ∃ fault, write id key value m = .error fault m ∧ fault.isDefect = false := by
  simp only [write, onStore_apply, HostAction.write]
  cases named : Key.ofValue key with
  | ok k => exact Or.inl ⟨m.store.tables.modify id (·.assign k key value), rfl⟩
  | error fault => exact Or.inr ⟨fault, rfl, Key.ofValue_own named⟩

theorem writeFrom_cases (id : Nat) (start : Float) (offset : Nat) (vs : List Value) (m : Machine) :
    ∃ tables, writeFrom id start offset vs m = .ok () { m with store := { m.store with tables } } ∨
      ∃ fault, writeFrom id start offset vs m = .error fault { m with store := { m.store with tables } } ∧
        fault.isDefect = false := by
  induction vs generalizing offset m with
  | nil => exact ⟨m.store.tables, Or.inl rfl⟩
  | cons v vs ih =>
    simp only [writeFrom, bind_apply]
    rcases write_cases id (.number (start + Float.ofNat offset)) v m with
      ⟨tables, done⟩ | ⟨fault, failed, own⟩
    · simp only [done]
      exact ih (offset + 1) { m with store := { m.store with tables } }
    · simp only [failed]
      exact ⟨m.store.tables, Or.inr ⟨fault, rfl, own⟩⟩

theorem putTable (h : Poised m F rest captured d .putTable a b) :
    Performed m F rest .putTable a b (perform F.closure .putTable a b m) := by
  have written (tables : Array Table) : m.Turns
      { m.drop 3 with store := { (m.drop 3).store with tables } }
      { m.current with stack := m.current.stack.take (m.current.stack.size - 3) } :=
    (h.dropped (n := 3) rfl).withStore h.sane fun c mem => Or.inl mem
  have done (tables : Array Table) :
      Performed m F rest .putTable a b
        (.ok () { m.drop 3 with store := { (m.drop 3).store with tables } }) :=
    h.takes (written tables) rfl rfl rfl
  have failed (tables : Array Table) (fault : Fault) (own : fault.isDefect = false) :
      Performed m F rest .putTable a b
        (.error fault { m.drop 3 with store := { (m.drop 3).store with tables } }) :=
    .raises (Nat.le_refl _) (Nat.sub_le _ _) (written tables) own
  simp only [perform, Exec.putTable, bind_apply, pop_apply, Machine.top_drop h.sane.running_lt,
    Machine.drop_drop, Nat.reduceAdd]
  cases m.top 3 with
  | table id =>
    have single : Performed m F rest .putTable a b (write id (m.top 2) (m.top 1).first (m.drop 3)) := by
      rcases write_cases id (m.top 2) (m.top 1).first (m.drop 3) with
        ⟨tables, ok⟩ | ⟨fault, bad, own⟩
      · rw [ok]
        exact done tables
      · rw [bad]
        exact failed _ fault own
    revert single
    cases m.top 2 <;> intro single <;> try exact single
    rename_i start
    revert single
    cases m.top 1 <;> intro single <;> try exact single
    rename_i vs
    obtain ⟨tables, ok | ⟨fault, bad, own⟩⟩ := writeFrom_cases id start 0 vs (m.drop 3)
    · simp only [ok]
      exact done tables
    · simp only [bad]
      exact failed tables fault own
  | _ => exact failed _ _ rfl

theorem call (h : Poised m F rest captured d .call a b) :
    Performed m F rest .call a b (perform F.closure .call a b m) := by
  have callee : (m.drop a).top 1 = m.top (a + 1) := by
    rw [show 1 = 0 + 1 from rfl, Machine.top_drop h.sane.running_lt, Nat.add_comm 1 a]
  simp only [perform, bind_apply, popSpread_eq, pop_apply, Machine.drop_drop, callee]
  refine .calls rfl (h.dropped rfl) rfl ?_ rfl rfl (Or.inl rfl)
  simp only [slots, Opcode.touched, Opcode.operands, Instruction.stackEffect]
  split <;> omega

/-- The address of the innermost frame is set. -/
theorem jump_turns (h : Poised m F rest captured d op a b) {t : Thread} (turns : m.Turns m' t)
    (frames : t.frames = F :: rest) :
    jump a m' = .ok () (m'.modifyCurrent (·.modifyFrame ({ · with ip := a }))) ∧
      m.Turns (m'.modifyCurrent (·.modifyFrame ({ · with ip := a })))
        { t with frames := { F with ip := a } :: rest } := by
  refine ⟨rfl, ?_⟩
  have moved := turns.modify h.sane (·.modifyFrame ({ · with ip := a }))
  simpa only [Thread.modifyFrame, frames] using moved

theorem jmp (h : Poised m F rest captured d .jmp a b) :
    Performed m F rest .jmp a b (perform F.closure .jmp a b m) := by
  obtain ⟨done, turns⟩ := h.jump_turns (.refl h.sane) h.frames
  rw [perform, done]
  exact h.stands turns rfl (by simp [Instruction.closedEffect]) rfl (Or.inr ⟨rfl, rfl⟩)

theorem jmpTrue (h : Poised m F rest captured d .jmpTrue a b) :
    Performed m F rest .jmpTrue a b (perform F.closure .jmpTrue a b m) := by
  have stack := h.touched_le
  simp only [Opcode.touched, Opcode.operands] at stack
  simp only [perform]
  by_cases peeks : b = 1
  · -- the condition stays
    obtain ⟨cell, found⟩ := Thread.cell?_isSome (t := m.current) (n := 1) (by omega) (by omega)
    have size : Instruction.stackEffect .jmpTrue a b = 0 := by simp [Instruction.stackEffect, peeks]
    simp only [if_pos peeks, bind_apply, peek_apply found]
    by_cases holds : (m.store.cell cell).isTruthy = true
    · obtain ⟨done, turns⟩ := h.jump_turns (.refl h.sane) h.frames
      simp only [if_pos holds, done]
      exact h.stands turns size (by simp [Instruction.closedEffect]) rfl (Or.inr ⟨rfl, rfl⟩)
    · simp only [if_neg holds]
      exact h.closes m.current.captures (.refl h.sane) size
        (by simp [Instruction.closedEffect]) rfl rfl
  · have drops := h.dropped (n := 1) rfl
    have size : (0 : Int) = Opcode.jmpTrue.touched a b + Instruction.stackEffect .jmpTrue a b := by
      simp [Opcode.touched, Opcode.operands, Instruction.stackEffect, peeks]
    simp only [if_neg peeks, bind_apply, pop_apply]
    by_cases holds : (m.top 1).isTruthy = true
    · obtain ⟨done, turns⟩ := h.jump_turns drops h.frames
      simp only [if_pos holds, done]
      exact .stays (show m.Turns _ { m.current with
          stack := m.current.stack.take (m.current.stack.size - Opcode.jmpTrue.touched a b) ++ #[]
          frames := { F with ip := a } :: rest } by simpa using turns) (by simpa using size)
        (by simp [Instruction.closedEffect]) rfl (Or.inr ⟨rfl, rfl⟩)
    · simp only [if_neg holds]
      exact h.takes drops size rfl rfl

/-- Pushing several values, one after another. -/
theorem forM_push (h : Poised m F rest captured d op a b) (vs : List Value) {t : Thread}
    (turns : m.Turns m' t) : ∃ m'' pushed, vs.forM push m' = .ok () m'' ∧ pushed.size = vs.length ∧
      m.Turns m'' { t with stack := t.stack ++ pushed } := by
  induction vs generalizing m' t with
  | nil => exact ⟨m', #[], rfl, rfl, by simpa using turns⟩
  | cons v vs ih =>
    obtain ⟨m'', pushed, done, size, turns'⟩ := ih (turns.push h.sane v)
    refine ⟨m'', #[m'.store.cells.size] ++ pushed, ?_, by simp [size]; omega, ?_⟩
    · show (push v >>= fun _ => vs.forM push) m' = _
      simp only [bind_apply, push_apply]
      exact done
    · rw [Array.push_eq_append, Array.append_assoc] at turns'
      exact turns'

theorem popVarArgs (h : Poised m F rest captured d .popVarArgs a b) :
    Performed m F rest .popVarArgs a b (perform F.closure .popVarArgs a b m) := by
  have expand := h.legal.expand rfl
  have touched : Opcode.popVarArgs.touched a b = 1 := by
    simp only [Opcode.touched]
    omega
  have stack := h.touched_le
  obtain ⟨cell, found⟩ := Thread.cell?_isSome (t := m.current) (n := 1) (by omega) (by omega)
  have drops := h.dropped touched
  simp only [perform, Exec.popVarArgs, bind_apply, peek_apply found, modify_apply, pop_eq_take]
  generalize (m.store.cell cell).spread = values
  by_cases consumes : b = 1
  · obtain ⟨m', pushed, done, size, turns⟩ := h.forM_push (Value.adjust a values) drops
    have result : Performed m F rest .popVarArgs a b (.ok () m') := by
      refine h.goesOn _ turns ?_ rfl rfl
      rw [size, length_adjust, touched]
      simp only [Instruction.stackEffect]
      omega
    rw [← done] at result
    simpa [consumes, Machine.drop] using result
  · obtain ⟨m', pushed, done, size, turns⟩ :=
      h.forM_push (.multi (values.drop a) :: Value.adjust a values) drops
    have result : Performed m F rest .popVarArgs a b (.ok () m') := by
      refine h.goesOn _ turns ?_ rfl rfl
      rw [size, List.length_cons, length_adjust, touched]
      simp only [Instruction.stackEffect]
      omega
    rw [← done] at result
    simpa [consumes, Machine.drop, List.forM] using result

/-- A control slot becomes a number, or the loop fails. -/
theorem forControl_cases (h : Poised m F rest captured d op a b) (turns : m.Turns m' m.current)
    (offset : Nat) (message : String) (low : 1 ≤ offset) (high : offset ≤ m.current.stack.size) :
    (∃ m'', forControl offset message m' = .ok () m'' ∧ m.Turns m'' m.current) ∨
      ∃ fault, forControl offset message m' = .error fault m' ∧ fault.isDefect = false := by
  obtain ⟨cell, found⟩ := Thread.cell?_isSome low high
  rw [← turns.thread] at found
  simp only [forControl, bind_apply, slot_apply found, get_apply]
  cases (m'.store.cell cell).coerce? with
  | some n => exact Or.inl ⟨_, rfl, turns.withStore h.sane fun c mem => Or.inl mem⟩
  | none => exact Or.inr ⟨_, rfl, rfl⟩

theorem forPrep (h : Poised m F rest captured d .forPrep a b) :
    Performed m F rest .forPrep a b (perform F.closure .forPrep a b m) := by
  have stack := h.touched_le
  simp only [Opcode.touched, Opcode.operands] at stack
  simp only [perform, Exec.forPrep, bind_apply]
  rcases h.forControl_cases (.refl h.sane) 3 "initial value must be a number"
    (by omega) (by omega) with ⟨m₁, done, turns⟩ | ⟨fault, failed, own⟩
  · simp only [done]
    rcases h.forControl_cases turns 2 "limit must be a number" (by omega)
      (by omega) with ⟨m₂, done, turns⟩ | ⟨fault, failed, own⟩
    · simp only [done]
      rcases h.forControl_cases turns 1 "step must be a number" (by omega)
        (by omega) with ⟨m₃, done, turns⟩ | ⟨fault, failed, own⟩
      · obtain ⟨cell, found⟩ := Thread.cell?_isSome (t := m.current) (n := 1) (by omega) (by omega)
        rw [← turns.thread] at found
        simp only [done, peek_apply found]
        by_cases zero : (m₃.store.cell cell == .number 0.0) = true
        · simp only [if_pos zero]
          exact fails turns rfl
        · simp only [if_neg zero]
          exact h.closes m.current.captures turns rfl (by simp [Instruction.closedEffect]) rfl rfl
      · simp only [failed]
        exact fails turns own
    · simp only [failed]
      exact fails turns own
  · simp only [failed]
    exact fails (.refl h.sane) own

theorem closeVars (h : Poised m F rest captured d .closeVars a b) :
    Performed m F rest .closeVars a b (perform F.closure .closeVars a b m) := by
  have stack := h.touched_le
  simp only [Opcode.touched, Opcode.operands] at stack
  have enough : ¬m.current.stack.size < a := by omega
  simp only [perform, Exec.closeVars, bind_apply, get_apply, if_neg enough, modify_apply]
  refine h.closes _ ((Machine.Turns.refl h.sane).modify h.sane _) rfl ?_ rfl rfl
  simp only [Instruction.closedEffect, Array.size_append, Array.size_extract]
  omega

theorem popClosed (h : Poised m F rest captured d .popClosed a b) :
    Performed m F rest .popClosed a b (perform F.closure .popClosed a b m) := by
  have release := h.legal.release rfl
  have captures := h.captures
  simp only [perform, modify_apply]
  refine h.closes _ ((Machine.Turns.refl h.sane).modify h.sane _) rfl ?_ rfl rfl
  simp only [Instruction.closedEffect, Array.shrink_eq_take, Array.size_extract]
  omega

theorem closure (h : Poised m F rest captured d .closure a b) :
    Performed m F rest .closure a b (perform F.closure .closure a b m) := by
  obtain ⟨child, found, count⟩ := h.legal.nested rfl
  have captures := h.captures
  have fits : Closure.Fits
      ⟨child, m.current.captures.extract F.captureBase m.current.captures.size⟩ := by
    have layout := h.nested child (List.mem_of_find?_eq_some found)
    have same : child.id = a := by simpa using List.find?_some found
    have closed := h.legal.closed
    have size : captured a =
        (m.current.captures.extract F.captureBase m.current.captures.size).size := by
      rw [Array.size_extract]
      omega
    rw [same, size] at layout
    exact layout
  have turns : m.Turns { m with store := (m.store.newClosure
      ⟨child, m.current.captures.extract F.captureBase m.current.captures.size⟩).2 } m.current := by
    refine (Machine.Turns.refl h.sane).withStore h.sane fun c mem => ?_
    rcases Array.mem_push.1 mem with mem | rfl
    · exact Or.inl mem
    · exact Or.inr fits
  simp only [perform, makeClosure, found, bind_apply, get_apply, h.frames, onStore_apply]
  refine h.pushes (?_ : m.Turns { m with store := (m.store.newClosure _).2 } _) rfl rfl rfl _
  simpa [Opcode.touched, Opcode.operands] using turns

end Poised

/-- Every legal instruction but a return. -/
theorem performed {m : Machine} {F : Frame} {rest : List Frame} {captured : Nat → Nat} {d : Depths}
    {op : Opcode} {a b : Nat} (h : Poised m F rest captured d op a b) (other : op ≠ .ret) :
    Performed m F rest op a b (Exec.perform F.closure op a b m) := by
  cases op with
  | loadK => exact h.loadK
  | getStack => exact h.getStack
  | putStack => exact h.putStack
  | popStack => exact h.popStack
  | getGlobal => exact h.getGlobal
  | putGlobal => exact h.putGlobal
  | add | sub | mul | div | mod | pow => exact h.arithmetic rfl
  | neg => exact h.neg
  | concat => exact h.concat
  | len => exact h.len
  | eq => exact h.eq
  | not => exact h.not
  | and => exact h.and
  | or => exact h.or
  | less => exact h.less
  | lessEq => exact h.lessEq
  | newTable => exact h.newTable
  | putTable => exact h.putTable
  | getTable => exact h.getTable
  | call => exact h.call
  | jmp => exact h.jmp
  | jmpTrue => exact h.jmpTrue
  | popVarArgs => exact h.popVarArgs
  | forPrep => exact h.forPrep
  | closeVars => exact h.closeVars
  | popClosed => exact h.popClosed
  | closure => exact h.closure
  | getUpval => exact h.getUpval
  | putUpval => exact h.putUpval
  | ret => exact absurd rfl other

end ScriptEngine
