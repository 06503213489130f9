import ScriptEngine.Proofs.Machine.Tidy
import ScriptEngine.Proofs.Machine.Steps

/-!
# Stacks without stray multi-values

The slots of a stack that are no frame's first one are `Clear` of multi-values, but for the topmost slot
while the innermost frame is at a loose address. The frames below an unfinished call are cleared for good
(`Clears`): whatever lands on their stack is what they wait for, and it is a multi-value only if the
instruction that waits opens one. A machine is `Confined` if all of its threads are in such a state and
nothing else of it holds a multi-value. Steps and unwinding keep it so (`Confined.step`,
`Confined.unwind`).
-/

set_option linter.dupNamespace false

namespace ScriptEngine

/-- The frame's next instruction may find a multi-value on top. -/
def Frame.IsLoose (f : Frame) : Prop :=
  ∃ record captured, Layout.Recorded f.closure.upvalues.size f.closure.unit record captured ∧
    Loose f.closure.unit.code record.at? f.ip

/-- The frames stand on slots below `size` and wait for `want` results there: only their first slots may
hold multi-values, and where all results land the innermost frame is at a loose address or has none yet. -/
inductive Clears (s : Store) (stack : Array Nat) : List Frame → Nat → Nat → Prop where
  | idle (want : Nat) : Clears s stack [] 0 want
  | call {f : Frame} {rest : List Frame} {size want : Nat} (base : f.base ≤ size)
      (slots : ∀ i cell, f.base < i → i < size → stack[i]? = some cell → s.HasPlain cell)
      (opens : want = 0 → size = f.base ∨ f.IsLoose)
      (below : Clears s stack rest f.base f.want) : Clears s stack (f :: rest) size want

namespace Clears

variable {s s' : Store} {stack stack' : Array Nat} {frames : List Frame} {size want : Nat}

theorem mono (h : Clears s stack frames size want) (keeps : s.Keeps s')
    (same : ∀ i, i < size → stack'[i]? = stack[i]?) : Clears s' stack' frames size want := by
  induction h with
  | idle want => exact .idle want
  | call base slots opens below ih =>
    refine .call base (fun i cell above inside found => ?_) opens
      (ih fun i inside => same i (Nat.lt_of_lt_of_le inside base))
    rw [same i inside] at found
    exact keeps cell (slots i cell above inside found)

theorem size_eq_zero (h : Clears s stack [] size want) : size = 0 := by
  cases h
  rfl

/-- A slot with a multi-value is the first one of some frame. -/
theorem first (h : Clears s stack frames size want) {i cell : Nat} (inside : i < size)
    (found : stack[i]? = some cell) (multi : ¬s.HasPlain cell) : ∃ f ∈ frames, f.base = i := by
  induction h with
  | idle => cases inside
  | @call f rest size want base slots opens below ih =>
    rcases Nat.lt_trichotomy i f.base with low | rfl | high
    · obtain ⟨g, mem, first⟩ := ih low
      exact ⟨g, List.mem_cons_of_mem _ mem, first⟩
    · exact ⟨f, List.mem_cons_self, rfl⟩
    · exact absurd (slots i cell high inside found) multi

/-- A caught fault finds the frame that it goes to waiting for what a failed call gives. -/
theorem caught {captures n : Nat} {handler : Handler} {outer : List Handler}
    (h : Clears s stack frames size want) (pends : Pends frames (handler :: outer) size captures want n) :
    Clears s stack (frames.drop (frames.length - handler.frames)) handler.stack
      (((outer.take handler.wraps).getLast?).getD handler).want := by
  generalize same : handler :: outer = handlers at pends
  induction pends with
  | idle => cases same
  | @call f rest hs hs' size captures want n awaits group below ih =>
    cases h with
    | call base slots opens clears =>
      cases hs with
      | nil =>
        have caught := ih clears same
        rw [List.nil_append] at same
        subst same
        obtain ⟨g, rest', suffix, length, -⟩ := below.caught
        have : handler.frames ≤ rest.length := by
          have := congrArg List.length suffix
          rw [List.length_drop, length] at this
          omega
        rw [List.length_cons, Nat.succ_sub this]
        exact caught
      | cons h' hs =>
        rw [List.cons_append] at same
        obtain ⟨rfl, rfl⟩ := List.cons.inj same
        obtain ⟨noted, noted', -⟩ := group.noted handler List.mem_cons_self
        obtain ⟨inner, last⟩ := group.want_eq hs'
        rw [last, noted', noted, List.length_cons, Nat.sub_self, List.drop_zero]
        exact .call base slots opens clears

end Clears

namespace Thread

variable {s s' : Store} {t : Thread} {want : Nat}

/-- The thread waits for `want` results. -/
def Waits (s : Store) (want : Nat) (t : Thread) : Prop := Clears s t.stack t.frames t.stack.size want

/-- The thread may take a step. -/
def Clear (s : Store) (t : Thread) : Prop :=
  match t.frames with
  | [] => t.stack.size = 0
  | f :: rest => (∀ i cell, f.base < i → t.stack[i]? = some cell →
      s.HasPlain cell ∨ f.IsLoose ∧ i + 1 = t.stack.size) ∧ Clears s t.stack rest f.base f.want

/-- A fault can go to the frames to which the handlers belong. -/
def Recovers (s : Store) (t : Thread) : Prop :=
  ∃ k stack captures want n, Pends (t.frames.drop k) t.handlers stack captures want n ∧
    Clears s t.stack (t.frames.drop k) stack want ∧ stack ≤ t.stack.size ∧ captures ≤ t.captures.size

theorem waits_empty (s : Store) (want : Nat) : Waits s want {} := .idle want

/-- A coroutine that has not run yet waits for its arguments. -/
theorem waits_ofClosure (s : Store) (c : Closure) : Waits s 0 (ofClosure c) :=
  .call (Nat.le_refl _) (fun i _ _ inside => absurd inside (Nat.not_lt_zero i)) (fun _ => Or.inl rfl)
    (.idle _)

theorem Waits.mono (h : t.Waits s want) (keeps : s.Keeps s') : t.Waits s' want :=
  Clears.mono h keeps fun _ _ => rfl

theorem Clear.mono (h : t.Clear s) (keeps : s.Keeps s') : t.Clear s' := by
  unfold Clear at h ⊢
  cases frames : t.frames with
  | nil => rwa [frames] at h
  | cons f rest =>
    rw [frames] at h
    exact ⟨fun i cell above found => (h.1 i cell above found).imp_left (keeps cell),
      h.2.mono keeps fun _ _ => rfl⟩

/-- What a thread waited for has landed on its stack, in new cells. -/
theorem Waits.receive (h : t.Waits s want) (alive : t.frames ≠ []) (keeps : s.Keeps s') {cell : Nat}
    (plain : want ≠ 0 → ∀ i, i < slots want → s'.HasPlain (cell + i)) :
    (t.withCells cell (slots want)).Clear s' := by
  unfold Waits at h
  unfold Clear Thread.withCells
  cases frames : t.frames with
  | nil => exact absurd frames alive
  | cons f rest =>
    rw [frames] at h
    cases h with
    | call base clear opens below =>
      refine ⟨fun i c above found => ?_, below.mono keeps fun i inside =>
        Array.getElem?_append_left (Nat.lt_of_lt_of_le inside base)⟩
      rw [Array.getElem?_append] at found
      split at found
      · rename_i old
        exact Or.inl (keeps c (clear i c above old found))
      · rename_i new
        rw [Array.getElem?_range'] at found
        split at found
        · rename_i inside
          cases found
          by_cases all : want = 0
          · -- the results are one multi-value, on top
            have one : slots want = 1 := by rw [slots, if_pos all]
            rcases opens all with low | isLoose
            · omega
            · refine Or.inr ⟨isLoose, ?_⟩
              simp only [Array.size_append, Array.size_range']
              omega
          · rw [Nat.one_mul]
            exact Or.inl (plain all _ inside)
        · cases found

/-- A frame that has been entered on top of one that waits. -/
theorem Waits.entered (h : t.Waits s want) (keeps : s.Keeps s') (c : Closure) (cell n : Nat)
    (hs : List Handler) : (t.entered c cell want n hs).Clear s' := by
  refine ⟨fun i c' above found => ?_, Clears.mono h keeps fun i inside => ?_⟩
  · have inside := (Array.getElem?_eq_some_iff.1 found).1
    simp only [Thread.entered, Array.size_push] at above inside
    omega
  · exact Array.getElem?_push_lt inside ▸ (Array.getElem?_eq_getElem inside).symm

/-- The state that the innermost handler noted comes back, and the frame waits for the failure. -/
theorem Recovers.restored {handler : Handler} {outer : List Handler} (h : t.Recovers s)
    (handlers : t.handlers = handler :: outer) : (t.restore handler).frames ≠ [] ∧
      Waits s ((((outer.take handler.wraps).getLast?).getD handler).want) (t.restore handler) := by
  obtain ⟨k, stack, captures, want, n, pends, clears, stackLe, -⟩ := h
  rw [handlers] at pends
  obtain ⟨f, rest, suffix, length, stackLe', -⟩ := pends.caught
  have total := congrArg List.length suffix
  have positive : 0 < handler.frames := length ▸ Nat.succ_pos _
  rw [List.length_drop, List.length_drop, length] at total
  have frames : (t.restore handler).frames =
      (t.frames.drop k).drop ((t.frames.drop k).length - handler.frames) := by
    show t.frames.drop (t.frames.length - handler.frames) = _
    rw [List.drop_drop, List.length_drop]
    congr 1
    omega
  have size : (t.restore handler).stack.size = handler.stack := by
    simp only [restore, Array.size_shrink]
    omega
  refine ⟨by rw [frames, ← suffix]; exact List.cons_ne_nil _ _, ?_⟩
  rw [Waits, frames, size]
  refine (clears.caught pends).mono (fun _ => id) fun i inside => ?_
  rw [restore, Array.shrink_eq_take, Array.getElem?_extract, if_pos (by omega), Nat.zero_add]

end Thread

/-- Multi-values are nowhere but on the stacks, each in the first slot of a frame or where it is expanded
next, and the running thread is as `Runs` says. -/
structure Machine.Confined (Runs : Store → Thread → Prop) (m : Machine) : Prop where
  plain : m.Plain
  current : Runs m.store m.current
  others : ∀ id, id < m.threads.size → id ≠ m.running →
    (m.thread id).Waits m.store (m.thread id).awaiting

namespace Machine

variable {m m' : Machine} {want : Nat} {Runs Runs' : Store → Thread → Prop}

namespace Confined

/-- Only the running thread has changed. -/
theorem alone (h : m.Confined Runs) (alone : m.Alone m') (flows : m.Flows m')
    (current : Runs' m'.store m'.current) : m'.Confined Runs' where
  plain := flows.plain
  current := current
  others id inside other := by
    rw [alone.running] at other
    by_cases old : id < m.threads.size
    · rw [alone.others id old other]
      exact (h.others id old other).mono flows.keeps
    · obtain ⟨c, -, made⟩ := alone.made id (by omega) inside
      rw [made]
      exact Thread.waits_ofClosure _ c

theorem turns {t : Thread} (h : m.Confined Runs) (turns : m.Turns m' t) (flows : m.Flows m')
    (current : Runs' m'.store t) : m'.Confined Runs' :=
  h.alone turns.alone flows (turns.thread ▸ current)

/-- Values that were delivered in new cells are plain unless they are one multi-value. -/
theorem plain_delivered {s : Store} {vs : List Value} (plain : Value.AllPlain vs) (some' : want ≠ 0) (i : Nat)
    (inside : i < slots want) : (s.withCells (delivered want vs)).HasPlain (s.cells.size + i) :=
  Store.hasPlain_withCells (plain.delivered some') (by rwa [length_delivered])

/-- The running thread has got what it waited for. -/
theorem received (h : m.Confined Runs) (sane : m.Sane) (waits : m.current.Waits m.store want)
    (alive : m.current.frames ≠ []) {vs : List Value} (plain : Value.AllPlain vs) :
    (m.pushResults want vs).Confined Thread.Clear := by
  have flows := h.plain.pushResultsOn m.running want plain
  refine h.alone (.pushResults sane want vs) flows ?_
  rw [current_pushResults sane.running_lt]
  refine waits.receive alive flows.keeps fun some' i inside => ?_
  rw [store_pushResultsOn]
  exact plain_delivered plain some' i inside

/-- Control has gone to another thread, which has got what it waited for. -/
theorem handed {vs : List Value} (h : m.Confined Runs) (other : m'.running ≠ m.running)
    (target : m'.running < m.threads.size) (alive : (m.thread m'.running).frames ≠ [])
    (plain : Value.AllPlain vs) (flows : m.Flows m') (size : m'.threads.size = m.threads.size)
    (store : m'.store = (m.deliver m'.running vs).store)
    (receives : m'.thread m'.running = (m.thread m'.running).receive m.store.cells.size)
    (caller : (m'.thread m.running).Waits m.store (m'.thread m.running).awaiting)
    (others : ∀ id, id ≠ m.running → id ≠ m'.running → m'.thread id = m.thread id) :
    m'.Confined Thread.Clear where
  plain := flows.plain
  current := by
    have waits : Thread.Waits m.store (m.thread m'.running).awaiting { m.thread m'.running with
        handlers := (m.thread m'.running).handlers.drop (m.thread m'.running).awaitingProtections
        awaitingProtections := 0 } := h.others _ target other
    rw [Machine.current, receives]
    refine waits.receive alive flows.keeps fun some' i inside => ?_
    rw [store, store_deliver]
    exact plain_delivered (plain.trues _) some' i inside
  others id inside away := by
    by_cases itself : id = m.running
    · rw [itself]
      exact caller.mono flows.keeps
    · rw [others id itself away]
      exact (h.others id (size ▸ inside) itself).mono flows.keeps

/-! ## Calls -/

/-- A call that goes on. -/
theorem outcome_ok {reply : Reply} {u : Unit} (order : m.Ordered (Thread.Calling want))
    (h : m.Confined (Thread.Waits · want ·)) (out : m.Outcome want reply (.ok u m')) (plain : reply.IsPlain)
    (flows : m.Flows m') : m'.Confined Thread.Clear := by
  cases out with
  | @values k vs alone same =>
    have sane := order.sane.alone alone
    refine h.alone (.trans order.sane alone (.pushResults sane want vs)) flows ?_
    rw [current_pushResults sane.running_lt, same]
    refine h.current.receive order.current.2.1 flows.keeps fun some' i inside => ?_
    rw [show (k.pushResults want vs).store = _ from store_pushResultsOn]
    exact plain_delivered plain some' i inside
  | entered entered =>
    obtain ⟨cell, hs, -, -, thread⟩ := entered.thread
    exact h.alone entered.alone flows (thread ▸ h.current.entered flows.keeps _ _ _ _)
  | blocked switched =>
    obtain ⟨alive, bound, -⟩ := switched.switch.sound order.sane.rooted order.alive
    obtain ⟨hs, -, caller⟩ := switched.caller
    refine h.handed (switched.switch.ne order.sane.distinct) (bound _ List.mem_cons_self) alive plain flows
      switched.size switched.store switched.target ?_ switched.others
    rw [caller]
    exact h.current

/-- A call that raises a fault inside at most one protected call. -/
theorem outcome_error {reply : Reply} {fault : Fault} (order : m.Ordered (Thread.Calling want))
    (h : m.Confined (Thread.Waits · want ·)) (out : m.Outcome want reply (.error fault m'))
    (few : reply.layers ≤ 1) (flows : m.Flows m') : m'.Confined Thread.Recovers := by
  cases out with
  | raised raised =>
    obtain ⟨hs, guards, thread⟩ := raised.guards few
    refine h.alone raised.alone flows ?_
    rw [thread]
    exact ⟨0, _, _, _, _, order.current.2.2.guard order.current.2.1 guards, h.current.mono flows.keeps,
      Nat.le_refl _, Nat.le_refl _⟩

/-- Above the base of the innermost frame the machine is tidy. -/
theorem tidy (h : m.Confined Thread.Clear) (inside : m.running < m.threads.size) {f : Frame}
    {rest : List Frame} (frames : m.current.frames = f :: rest) : m.Tidy f.base f.IsLoose := by
  have clear := h.current
  simp only [Thread.Clear, frames] at clear
  exact ⟨h.plain, inside, clear.1⟩

/-- Only the innermost frame's slots have changed. -/
theorem of_tidy {f' : Frame} {rest : List Frame} {loose : Prop} (h : m.Confined Runs) (alone : m.Alone m')
    (flows : m.Flows m') (frames : m'.current.frames = f' :: rest) (tidy : m'.Tidy f'.base loose)
    (isLoose : loose → f'.IsLoose) (below : Clears m.store m.current.stack rest f'.base f'.want)
    (same : ∀ i, i < f'.base → m'.current.stack[i]? = m.current.stack[i]?) : m'.Confined Thread.Clear := by
  refine h.alone alone flows ?_
  rw [Thread.Clear, frames]
  exact ⟨(tidy.mono isLoose).slots, below.mono flows.keeps same⟩

/-- Judging a comparison. -/
theorem judge (h : m.Confined Thread.Clear) (order : m.Ordered Thread.Active)
    (alive : m.current.frames ≠ []) (running frames : Nat) :
    ∃ k, Exec.judge running frames m = .ok () k ∧ k.Confined Thread.Clear := by
  cases here : m.current.frames with
  | nil => exact absurd here alive
  | cons f rest =>
    have tidy := h.tidy order.sane.running_lt here
    have comes := Exec.judge_comes h.plain running frames
    have upright := order.current.2
    have clear := h.current
    simp only [Thread.Clear, here] at upright clear
    have base := upright.rests.base_lt
    simp only [Exec.judge, Exec.bind_apply, Exec.get_apply, here] at comes ⊢
    by_cases same : m.running = running
    · simp only [if_pos same] at comes ⊢
      by_cases entered : frames < (f :: rest).length
      · simp only [if_pos entered, Exec.set_apply] at comes ⊢
        have turns := (Turns.refl order.sane).modify order.sane (·.modifyFrame ({ · with isCondition := true }))
        refine ⟨_, rfl, h.turns turns comes.2 ?_⟩
        simp only [Thread.modifyFrame, here, Thread.Clear]
        exact clear
      · simp only [if_neg entered, Exec.bind_apply, Exec.pop_apply, Exec.push_apply] at comes ⊢
        have turns := (Turns.drop order.sane 1).push order.sane (.boolean (m.top 1).isTruthy)
        have pushed : ((m.drop 1).push (.boolean (m.top 1).isTruthy)).Tidy f.base False :=
          (tidy.drop (fun _ => Nat.le_refl 1) False).push trivial (Or.inl rfl)
        refine ⟨_, rfl, h.of_tidy turns.alone comes.2 (by rw [turns.thread]; exact here) pushed False.elim
          clear.2 fun i low => ?_⟩
        rw [turns.thread]
        rw [Array.getElem?_push_lt (by simp only [Array.size_extract]; omega)]
        simp only [Array.getElem_extract, Nat.zero_add]
        exact (Array.getElem?_eq_getElem _).symm
    · simp only [if_neg same]
      exact ⟨m, rfl, h⟩

/-! ## Steps -/

/-- The machine with the address moved on. -/
theorem advance (h : m.Confined Thread.Clear) (order : m.Ordered Thread.Active) :
    m.Flows m.advance ∧ m.advance.Confined fun _ t => t = m.advance.current := by
  have flows : m.Flows m.advance := h.plain.modifyThread _ fun t ht => ht.modifyFrame fun _ => rfl
  exact ⟨flows, h.alone (.modifyCurrent order.sane _) flows rfl⟩

/-- An instruction that calls. -/
theorem called {k : Machine} {callee : Value} {args : List Value} (order : k.Ordered (Thread.Calling want))
    (h : k.Confined (Thread.Waits · want ·)) (hc : callee.isPlain = true) (hargs : Value.AllPlain args)
    (few : ∀ rest, k.callTarget callee args ≠ .ok (.core .pcall, .core .pcall :: rest)) :
    match Exec.call callee args want k with
    | .ok _ m' => m'.Confined Thread.Clear ∧ m'.Ordered Thread.Active ∧ m'.current.frames ≠ []
    | .error fault m' => fault.IsPlain ∧ m'.Confined Thread.Recovers := by
  have comes := Exec.call_comes h.plain hc hargs want
  obtain ⟨reply, out, plain⟩ := Exec.call_replies order.sane h.plain hc hargs want
  obtain ⟨reply', out', layers, -⟩ := Exec.call_outcome order.sane callee args want
  generalize Exec.call callee args want k = r at comes out out'
  cases r with
  | ok u m' => exact ⟨h.outcome_ok order out plain comes.2, order.outcome_ok out, out.alive order⟩
  | error fault m' =>
    refine ⟨comes.1, h.outcome_error order out' (layers few) comes.2⟩

end Confined

/-- What the code promises of the instruction that a frame is at. -/
theorem Poises.handles {f : Frame} {rest : List Frame} {op : Opcode} {a b : Nat} {captured : Nat → Nat}
    {d : Depths} (poises : m.Poises f rest op a b)
    (poised : Poised m.advance { f with ip := f.ip + 1 } rest captured d op a b) :
    op.Handles a b d f.IsLoose ∧ (∀ v ∈ f.closure.unit.constants, v.isPlain = true) ∧
      (op.opens a b d.depth = true ∨ op = .popClosed ∧ f.IsLoose →
        Frame.IsLoose { f with ip := f.ip + 1 } ∧ op.isJump = false) := by
  obtain ⟨record, captured', d', recorded, here, depth, closed⟩ := poises.upright.rests
  have stack := poised.stack
  have captures := poised.captures
  rw [poises.thread] at stack captures
  have same : d' = d := by
    obtain ⟨x, y⟩ := d
    obtain ⟨x', y'⟩ := d'
    dsimp only at stack captures depth closed
    rw [Depths.mk.injEq]
    omega
  subst same
  have instruction := poises.instruction
  simp only [next?, poises.frames, List.head?_cons, Option.bind_eq_bind, Option.bind_some,
    Option.bind_eq_some_iff] at instruction
  obtain ⟨ins, code, op', opcode, pair⟩ := instruction
  cases pair
  have handles := recorded.tame f.ip ins op d' code opcode here
  have loose : f.IsLoose → Loose f.closure.unit.code record.at? f.ip := by
    rintro ⟨record', _, recorded', isLoose⟩
    cases recorded.depths.symm.trans recorded'.depths
    exact isLoose
  refine ⟨⟨fun isLoose => handles.top (loose isLoose), handles.first⟩, recorded.constants, ?_⟩
  rintro (opens | ⟨rfl, isLoose⟩)
  · refine ⟨⟨record, captured', recorded, .opened code opcode here opens⟩, ?_⟩
    cases op <;> first | rfl | cases opens
  · exact ⟨⟨record, captured', recorded, .passed (loose isLoose) code opcode⟩, rfl⟩

namespace Confined

variable {f : Frame} {rest : List Frame} {op : Opcode} {a b : Nat}

/-- What lies on the stack when an instruction is performed. -/
theorem advance_tidy (order : m.Ordered Thread.Active) (h : m.Confined Thread.Clear)
    (poises : m.Poises f rest op a b) : m.advance.Tidy f.base f.IsLoose ∧
      Clears m.advance.store m.advance.current.stack rest f.base f.want := by
  constructor
  · refine (h.tidy order.sane.running_lt poises.frames).modifyCurrent (fun t ht => ht.modifyFrame fun _ => rfl) ?_
    simp only [Thread.modifyFrame, poises.frames]
  · have clear := h.current
    simp only [Thread.Clear, poises.frames] at clear
    rw [poises.thread]
    exact clear.2

/-- An instruction that asks for no call. -/
theorem perform_quiet (order : m.Ordered Thread.Active) (h : m.Confined Thread.Clear)
    (poises : m.Poises f rest op a b) (other : op ≠ .ret) (quiet : m.advance.request? op a b = none) :
    match Exec.perform f.closure op a b m.advance with
    | .ok _ m' => m'.Confined Thread.Clear
    | .error fault m' => fault.IsPlain ∧ m'.Confined Thread.Recovers := by
  obtain ⟨captured, d, poised⟩ := poises.poised
  obtain ⟨handles, constants, opens⟩ := poises.handles poised
  obtain ⟨flows, advanced⟩ := h.advance order
  obtain ⟨tidy, below⟩ := h.advance_tidy order poises
  obtain ⟨base, captureBase⟩ := poises.base_le
  have tidies := perform_tidies poised tidy handles constants other quiet
  have result := performed poised other
  generalize Exec.perform f.closure op a b m.advance = r at tidies result
  cases result with
  | @stays m' pushed captures ip turns size closed list next =>
    have frames : m'.current.frames = { f with ip } :: rest := by rw [turns.thread]
    refine advanced.of_tidy turns.alone tidies.1 frames tidies.2 (fun isLoose => ?_) below fun i low => ?_
    · obtain ⟨isLoose, straight⟩ := opens isLoose
      rcases next with ⟨rfl, -⟩ | ⟨-, jumps⟩
      · exact isLoose
      · cases straight.symm.trans jumps
    · rw [turns.thread, poises.thread]
      dsimp only at low ⊢
      rw [Array.getElem?_append_left (by simp only [Array.size_extract]; omega), Array.getElem?_extract,
        if_pos (by omega), Nat.zero_add]
  | @raises m' size fault low high turns _ =>
    refine ⟨tidies.1, advanced.turns turns tidies.2 ?_⟩
    rw [poises.thread] at low high below ⊢
    dsimp only at low high ⊢
    refine ⟨1, f.base, f.captureBase, f.want, f.protections, poises.upright.below, ?_, ?_, captureBase⟩
    · refine below.mono tidies.2.keeps fun i inside => ?_
      rw [Array.getElem?_extract, if_pos (by omega), Nat.zero_add]
    · simp only [Array.size_extract]
      omega
  | calls asked => cases quiet.symm.trans asked

/-- An instruction that asks for a call. -/
theorem perform_asking (order : m.Ordered Thread.Active) (h : m.Confined Thread.Clear)
    (poises : m.Poises f rest op a b) (firm : ¬m.Doubles) {callee : Value} {args : List Value}
    (asked : m.advance.request? op a b = some (callee, args, want)) :
    match Exec.perform f.closure op a b m.advance with
    | .ok _ m' => m'.Confined Thread.Clear
    | .error fault m' => fault.IsPlain ∧ m'.Confined Thread.Recovers := by
  obtain ⟨captured, d, poised⟩ := poises.poised
  obtain ⟨handles, -, opens⟩ := poises.handles poised
  obtain ⟨tidy, below⟩ := h.advance_tidy order poises
  obtain ⟨flows, advanced⟩ := h.advance order
  obtain ⟨base, captureBase⟩ := poises.base_le
  obtain ⟨size, closed, next⟩ := slots_of_request asked
  obtain ⟨hc, hargs⟩ := request_plain poised tidy handles asked
  obtain ⟨gone, all⟩ := request_shape handles asked
  have turns := Turns.drop poised.sane (op.touched a b)
  have cleared := tidy.drop gone False
  rw [poises.thread] at turns
  have calling : (m.advance.drop (op.touched a b)).Ordered (Thread.Calling want) :=
    (advance_ordered order).turns turns (poises.calls order.current.1 size closed next)
  have waits : (m.advance.drop (op.touched a b)).Confined (Thread.Waits · want ·) := by
    refine advanced.turns turns (tidy.plain.drop _) ?_
    rw [poises.thread] at below
    have slots := cleared.slots
    rw [turns.thread] at slots
    refine .call ?_ (fun i cell above _ found => (slots i cell above found).resolve_right fun ⟨none', _⟩ => none')
      (fun none' => Or.inr (opens (Or.inl (all none'))).1) (below.mono (fun _ => id) fun i low => ?_)
    · simp only [Array.size_extract]
      omega
    · dsimp only at low ⊢
      rw [Array.getElem?_extract, if_pos (by omega), Nat.zero_add]
  have after := called calling waits hc hargs fun rest' target =>
    firm ⟨callee, args, want, rest', poises.asks.trans asked, target⟩
  rcases calls_of_request poised.sane.running_lt poised.frames asked with done | ⟨-, done⟩
  · rw [done]
    generalize Exec.call callee args want _ = r at after ⊢
    cases r with
    | ok u m' => exact after.1
    | error fault m' => exact after
  · rw [done]
    simp only [Exec.bind_apply]
    generalize Exec.call callee args want _ = r at after ⊢
    cases r with
    | ok u m' =>
      obtain ⟨confined, active, alive⟩ := after
      obtain ⟨k, judged, confined⟩ := confined.judge active alive m.advance.running (rest.length + 1)
      simp only [judged]
      exact confined
    | error fault m' => exact after

/-- Control goes to the thread that resumed the running one, which has ended. -/
theorem handOver (h : m.Confined Runs) (order : m.Sane) (alive : ∀ id ∈ m.waiting, (m.thread id).frames ≠ [])
    (ended : m.current.frames = [] ∧ m.current.stack.size = 0) {resumer : Nat} {others : List Nat}
    (waiting : m.waiting = resumer :: others) {vs : List Value} (plain : Value.AllPlain vs) :
    ({ m.deliver resumer vs with running := resumer, waiting := others } : Machine).Confined Thread.Clear := by
  have mem : resumer ∈ m.waiting := by simp [waiting]
  have switch : m.Switch resumer others := .yield waiting
  have other := switch.ne order.distinct
  have inside := order.bound resumer (List.mem_cons_of_mem _ mem)
  have given := h.plain.deliver resumer plain
  refine h.handed other inside (alive resumer mem) plain (given.trans (given.plain.withControl _ _)) (by simp) rfl
    (thread_deliver_self inside) ?_ fun id _ away => thread_deliver_ne away
  show Thread.Waits m.store ((m.deliver resumer vs).thread m.running).awaiting
    ((m.deliver resumer vs).thread m.running)
  rw [thread_deliver_ne (Ne.symm other)]
  show Clears m.store m.current.stack m.current.frames m.current.stack.size _
  rw [ended.1, ended.2]
  exact .idle _

/-- The innermost frame goes, and the one below gets what it waited for. -/
theorem left (h : m.Confined Runs) (sane : m.Sane) (frames : m.current.frames = f :: rest)
    (below : Clears m.store m.current.stack rest f.base f.want) (base : f.base ≤ m.current.stack.size) :
    (m.modifyCurrent (f.leave rest)).Confined (Thread.Waits · f.want ·) := by
  have turns := (Turns.refl sane).modify sane (f.leave rest)
  have inner : ∀ g ∈ rest, ∀ cell ∈ g.closure.upvalues, m.store.HasPlain cell := by
    have all : ∀ g ∈ m.current.frames, _ := (h.plain.threads m.running).upvalues
    rw [frames] at all
    exact fun g mem => all g (List.mem_cons_of_mem _ mem)
  have flows : m.Flows (m.modifyCurrent (f.leave rest)) := h.plain.modifyThread _ fun t ht =>
    ⟨fun cell mem => ht.captures cell (mem_of_mem_shrink mem), inner⟩
  refine h.turns turns flows ?_
  have size : (m.current.stack.shrink f.base).size = f.base := by
    rw [Array.size_shrink]
    omega
  rw [Thread.Waits, Frame.leave]
  dsimp only
  rw [size]
  refine below.mono flows.keeps fun i low => ?_
  rw [Array.shrink_eq_take, Array.getElem?_extract, if_pos (by omega), Nat.zero_add]

/-- A return hands plain values on. -/
theorem returns (order : m.Ordered Thread.Active) (h : m.Confined Thread.Clear)
    (poises : m.Poises f rest .ret a b) :
    ∃ r m', Exec.step m = .ok r m' ∧ m'.Confined Thread.Clear := by
  obtain ⟨captured, d, poised⟩ := poises.poised
  obtain ⟨tidy, below⟩ := h.advance_tidy order poises
  obtain ⟨flows, advanced⟩ := h.advance order
  obtain ⟨base, -⟩ := poises.base_le
  have sane := poised.sane
  have drops := Turns.drop sane a
  have ordered := (advance_ordered order).turns drops rfl
  rw [poises.thread] at drops below
  dsimp only at drops below
  have frames : (m.advance.drop a).current.frames = { f with ip := f.ip + 1 } :: rest := by rw [drops.thread]
  have dropped : (m.advance.drop a).Confined fun _ t => t = (m.advance.drop a).current :=
    advanced.alone drops.alone (tidy.plain.drop a) rfl
  have left := dropped.left ordered.sane frames ?below ?base
  case below =>
    rw [drops.thread]
    refine below.mono (fun _ => id) fun i low => ?_
    simp only [Opcode.touched, Opcode.operands] at base
    rw [Array.getElem?_extract, if_pos (by omega), Nat.zero_add]
  case base =>
    rw [drops.thread]
    simpa [Opcode.touched, Opcode.operands] using base
  have gone := (Turns.refl ordered.sane).modify ordered.sane (Frame.leave { f with ip := f.ip + 1 } rest)
  have orderedLeft : Machine.Ordered (fun _ => True) _ := ordered.turns gone trivial
  have results : Value.AllPlain (Frame.pays { f with ip := f.ip + 1 } (m.advance.spread a)) := by
    refine Value.AllPlain.trues ?_ _
    split
    · exact .cons rfl fun _ mem => absurd mem List.not_mem_nil
    · exact tidy.plain.spread a
  rw [poises.returns rfl]
  simp only [Exec.bind_apply, Exec.popSpread_eq]
  rcases Exec.returnFrom_cases frames (m.advance.spread a) with ⟨some', done⟩ | ⟨rfl, waiting, done⟩ |
    ⟨rfl, resumer, others, waiting, done⟩
  · refine ⟨_, _, done, left.received orderedLeft.sane left.current ?_ results⟩
    rw [gone.thread]
    exact some'
  · have waits := left.current
    refine ⟨_, _, done, ⟨left.plain, ?_, left.others⟩⟩
    rw [gone.thread] at waits ⊢
    exact waits.size_eq_zero
  · have waits := left.current
    refine ⟨_, _, done, left.handOver orderedLeft.sane orderedLeft.alive ?_ waiting (.cons rfl results)⟩
    rw [gone.thread] at waits ⊢
    exact ⟨rfl, waits.size_eq_zero⟩

/-- A step leaves no stray multi-value, and a fault that it raises carries none. -/
theorem step (order : m.Ordered Thread.Active) (h : m.Confined Thread.Clear) (firm : ¬m.Doubles) :
    match Exec.step m with
    | .ok _ m' => m'.Confined Thread.Clear
    | .error fault m' => fault.IsPlain ∧ m'.Confined Thread.Recovers := by
  cases frames : m.current.frames with
  | nil =>
    have handlers := order.current.2
    have clear := h.current
    simp only [Thread.Clear, frames] at handlers clear
    simp only [Exec.step, Exec.bind_apply, Exec.get_apply, frames, Exec.throw_apply]
    refine ⟨trivial, h.plain, ⟨0, 0, 0, 0, 0, ?_, ?_, Nat.zero_le _, Nat.zero_le _⟩, h.others⟩
    · rw [frames, handlers]
      exact .idle _ _ _
    · rw [frames]
      exact .idle _
  | cons f rest =>
    obtain ⟨op, a, b, poises⟩ := order.poises frames
    by_cases ret : op = .ret
    · subst ret
      obtain ⟨r, m', done, confined⟩ := h.returns order poises
      rw [done]
      exact confined
    · have after : match Exec.perform f.closure op a b m.advance with
          | .ok _ m' => m'.Confined Thread.Clear
          | .error fault m' => fault.IsPlain ∧ m'.Confined Thread.Recovers := by
        cases asked : m.advance.request? op a b with
        | none => exact h.perform_quiet order poises ret asked
        | some call => exact h.perform_asking order poises firm asked
      rw [poises.performs ret]
      simp only [Exec.bind_apply]
      generalize Exec.perform f.closure op a b m.advance = r at after
      cases r with
      | ok u m' => exact after
      | error fault m' => exact after

/-! ## Faults -/

/-- The innermost handler of the running thread catches a plain fault. -/
theorem catchWith (h : m.Confined Thread.Recovers) (sane : m.Sane) {handler : Handler} {outer : List Handler}
    (handlers : m.current.handlers = handler :: outer) {fault : Fault} (plain : fault.IsPlain) :
    (m.catchWith handler outer fault).Confined Thread.Clear := by
  obtain ⟨alive, waits⟩ := h.current.restored handlers
  have turns : m.Turns _ _ := (Turns.refl sane).modify sane fun t =>
    { t.restore handler with handlers := outer.drop handler.wraps, awaitingProtections := 0 }
  have flows : m.Flows (m.modifyCurrent fun t =>
      { t.restore handler with handlers := outer.drop handler.wraps, awaitingProtections := 0 }) :=
    h.plain.modifyThread _ fun t ht => ht.less (fun _ mem => mem_of_mem_shrink mem) fun _ mem => List.mem_of_mem_drop mem
  have caught : Machine.Confined (Thread.Waits · ((((outer.take handler.wraps).getLast?).getD handler).want) ·) _ :=
    h.turns turns flows (waits.mono flows.keeps)
  refine caught.received (sane.alone turns.alone) caught.current (by rw [turns.thread]; exact alive) ?_
  exact .trues (.cons rfl (.cons plain.toValue fun _ mem => absurd mem List.not_mem_nil)) _

/-- A thread without a handler dies. -/
theorem dies (h : m.Confined Runs) (sane : m.Sane) (dead : ∀ s, Runs' s {}) :
    (m.modifyCurrent fun _ => {}).Confined Runs' := by
  have turns : m.Turns _ _ := (Turns.refl sane).modify sane fun _ => {}
  exact h.turns turns (h.plain.modifyThread _ fun _ _ => .empty) (dead _)

/-- A fault goes on to the thread that resumed the running one. -/
theorem passOn (h : m.Confined fun s t => t.Waits s t.awaiting) (order : m.Ordered Thread.Blocked)
    {resumer : Nat} {rest : List Nat} (waiting : m.waiting = resumer :: rest) :
    ({ m with running := resumer, waiting := rest } : Machine).Confined Thread.Recovers := by
  have mem : resumer ∈ m.running :: m.waiting := List.mem_cons_of_mem _ (by simp [waiting])
  have away : resumer ≠ m.running := by
    rintro rfl
    exact (List.nodup_cons.1 order.sane.distinct).1 (by simp [waiting])
  have inside := order.sane.bound resumer mem
  refine ⟨(h.plain.withControl _ _).plain, ?_, fun id inside other => ?_⟩
  · exact ⟨0, _, _, _, _, order.others resumer inside away, h.others resumer inside away, Nat.le_refl _,
      Nat.le_refl _⟩
  · by_cases itself : id = m.running
    · subst itself
      exact h.current
    · exact h.others id inside itself

/-- Unwinding goes through the threads that wait, and those without a handler die. -/
theorem unwindFrom {fault : Fault} (plain : fault.IsPlain) {id : Nat} {waiting : List Nat}
    (order : ({ m with running := id, waiting } : Machine).Ordered Thread.Recoverable)
    (h : ({ m with running := id, waiting } : Machine).Confined Thread.Recovers) :
    (m.unwindFrom fault id waiting).2.Confined Thread.Clear := by
  induction waiting generalizing m id with
  | nil =>
    unfold Machine.unwindFrom
    cases handlers : (m.thread id).handlers with
    | cons handler outer => exact h.catchWith order.sane handlers plain
    | nil => exact h.dies order.sane fun _ => rfl
  | cons resumer rest ih =>
    unfold Machine.unwindFrom
    cases handlers : (m.thread id).handlers with
    | cons handler outer => exact h.catchWith order.sane handlers plain
    | nil =>
      have dead := order.dies (Thread.blocked_of_dead rfl rfl rfl)
      have waits : Machine.Confined (fun s t => t.Waits s t.awaiting) _ :=
        h.dies order.sane fun s => Thread.waits_empty s 0
      exact ih (dead.passOn rfl) (waits.passOn dead rfl)

theorem unwind {fault : Fault} (plain : fault.IsPlain) (order : m.Ordered Thread.Recoverable)
    (h : m.Confined Thread.Recovers) : (m.unwind fault).2.Confined Thread.Clear :=
  unwindFrom plain order h

end Confined

end Machine

end ScriptEngine
