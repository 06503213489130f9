import ScriptEngine.Proofs.Compiler.Verified
import ScriptEngine.Proofs.Machine.Standing

/-!
# How calls come out

A call does one of four things, and `Outcome` says for each what becomes of the machine: it finishes
and its results are pushed, it enters a frame, it hands control to another thread, or it raises a
fault. Protection adds the handlers of the protected calls around it and nothing else, whichever of the
four it is (`guarded_outcome`), so a chain of protected calls is dealt with by induction on its length
(`pcall_outcome`).
-/

set_option linter.dupNamespace false

namespace ScriptEngine

/-- A closure of a compiled chunk. -/
def Closure.IsChunk (c : Closure) : Prop :=
  c.upvalues = #[] ∧ ∃ text label, Compiler.compileSource text label = .ok c.unit

theorem Closure.IsChunk.fits {c : Closure} (h : c.IsChunk) : c.Fits := by
  obtain ⟨none', text, label, compiled⟩ := h
  unfold Fits
  rw [none']
  exact Compiler.compileSource_layout compiled

/-- The function makes no closures but of compiled chunks. -/
def HostFunction.Honest (f : HostFunction) : Prop :=
  ∀ args s, ∀ c ∈ ((f.run args).run.run s).2.closures, c ∈ s.closures ∨ c.IsChunk

namespace Machine

/-- All closures fit, the host is honest, and the threads that run or wait exist; at the bottom of them
is the program's. -/
structure Sane (m : Machine) : Prop where
  closures : ∀ c ∈ m.store.closures, c.Fits
  hosts : ∀ f ∈ m.hosts, f.Honest
  bound : ∀ id ∈ m.running :: m.waiting, id < m.threads.size
  distinct : (m.running :: m.waiting).Nodup
  bottom : (m.running :: m.waiting).getLast? = some 0

theorem Sane.running_lt {m : Machine} (h : m.Sane) : m.running < m.threads.size :=
  h.bound _ List.mem_cons_self

/-- The threads that run or wait exist, no thread does so twice, and at the bottom of them is the
program's. This much holds whatever the closures and the host are. -/
structure Rooted (m : Machine) : Prop where
  bound : ∀ id ∈ m.running :: m.waiting, id < m.threads.size
  distinct : (m.running :: m.waiting).Nodup
  bottom : (m.running :: m.waiting).getLast? = some 0

theorem Rooted.running_lt {m : Machine} (h : m.Rooted) : m.running < m.threads.size :=
  h.bound _ List.mem_cons_self

theorem Sane.rooted {m : Machine} (h : m.Sane) : m.Rooted := ⟨h.bound, h.distinct, h.bottom⟩

/-- From `m` to `m'` nothing but the running thread, globals and store have changed, and threads may
have been made. -/
structure Alone (m m' : Machine) : Prop where
  running : m'.running = m.running
  waiting : m'.waiting = m.waiting
  hosts : m'.hosts = m.hosts
  size : m.threads.size ≤ m'.threads.size
  others : ∀ id, id < m.threads.size → id ≠ m.running → m'.thread id = m.thread id
  made : ∀ id, m.threads.size ≤ id → id < m'.threads.size →
    ∃ c : Closure, c.Fits ∧ m'.thread id = .ofClosure c
  closures : ∀ c ∈ m'.store.closures, c.Fits

theorem Sane.alone {m m' : Machine} (h : m.Sane) (alone : m.Alone m') : m'.Sane where
  closures := alone.closures
  hosts := by rw [alone.hosts]; exact h.hosts
  bound := by
    rw [alone.running, alone.waiting]
    exact fun id mem => Nat.lt_of_lt_of_le (h.bound id mem) alone.size
  distinct := by rw [alone.running, alone.waiting]; exact h.distinct
  bottom := by rw [alone.running, alone.waiting]; exact h.bottom

namespace Alone

variable {m m' m'' : Machine}

theorem refl (h : m.Sane) : m.Alone m :=
  ⟨rfl, rfl, rfl, Nat.le_refl _, fun _ _ _ => rfl, fun _ low high => by omega, h.closures⟩

theorem trans (h : m.Sane) (first : m.Alone m') (second : m'.Alone m'') : m.Alone m'' where
  running := second.running.trans first.running
  waiting := second.waiting.trans first.waiting
  hosts := second.hosts.trans first.hosts
  size := Nat.le_trans first.size second.size
  others id inside other := by
    rw [second.others id (Nat.lt_of_lt_of_le inside first.size) (by rw [first.running]; exact other)]
    exact first.others id inside other
  made id low high := by
    by_cases early : id < m'.threads.size
    · have other : id ≠ m'.running := by
        have := h.running_lt
        rw [first.running]
        omega
      rw [second.others id early other]
      exact first.made id low early
    · exact second.made id (by omega) high
  closures := second.closures

/-- Changing the running thread. -/
theorem modifyCurrent (h : m.Sane) (f : Thread → Thread) : m.Alone (m.modifyCurrent f) where
  running := rfl
  waiting := rfl
  hosts := rfl
  size := by simp
  others id _ other := thread_modifyCurrent_ne other
  made id low high := by
    simp only [size_modifyCurrent] at high
    omega
  closures := h.closures

/-- Changing the store. -/
theorem store (s : Store) (closures : ∀ c ∈ s.closures, c.Fits) :
    m.Alone { m with store := s } where
  running := rfl
  waiting := rfl
  hosts := rfl
  size := Nat.le_refl _
  others _ _ _ := rfl
  made _ low high := absurd high (Nat.not_lt.2 low)
  closures := closures

theorem pushResults (h : m.Sane) (want : Nat) (vs : List Value) :
    m.Alone (m.pushResults want vs) where
  running := by simp [Machine.pushResults]
  waiting := by simp [Machine.pushResults]
  hosts := by simp [Machine.pushResults]
  size := by simp [Machine.pushResults]
  others id _ other := thread_pushResultsOn_ne other
  made id low high := by
    simp only [Machine.pushResults, size_pushResultsOn] at high
    omega
  closures := by
    simp only [Machine.pushResults, store_pushResultsOn]
    exact h.closures

end Alone

end Machine

/-! ## Steps of the monad -/

namespace Exec

variable {α β : Type} {m : Machine}

@[simp] theorem bind_apply (x : Exec α) (f : α → Exec β) (m : Machine) :
    (x >>= f) m = match x m with
      | .ok a m' => f a m'
      | .error fault m' => .error fault m' := by
  show EStateM.bind x f m = _
  unfold EStateM.bind
  cases x m <;> rfl

@[simp] theorem pure_apply (a : α) (m : Machine) : (pure a : Exec α) m = .ok a m := rfl
@[simp] theorem get_apply (m : Machine) : (get : Exec Machine) m = .ok m m := rfl
@[simp] theorem set_apply (m m' : Machine) : (set m' : Exec PUnit) m = .ok () m' := rfl
@[simp] theorem modify_apply (f : Machine → Machine) (m : Machine) :
    (modify f : Exec PUnit) m = .ok () (f m) := rfl
@[simp] theorem throw_apply (fault : Fault) (m : Machine) :
    (throw fault : Exec α) m = .error fault m := rfl

@[simp] theorem ofExcept_ok (a : α) (m : Machine) : (ofExcept (.ok a) : Exec α) m = .ok a m := rfl
@[simp] theorem ofExcept_error (fault : Fault) (m : Machine) :
    (ofExcept (.error fault) : Exec α) m = .error fault m := rfl

@[simp] theorem pushResults_apply (want : Nat) (vs : List Value) (m : Machine) :
    Exec.pushResults want vs m = .ok () (m.pushResults want vs) := rfl

@[simp] theorem push_apply (v : Value) (m : Machine) : Exec.push v m = .ok () (m.push v) := rfl

end Exec

/-! ## The four outcomes -/

/-- The thread after a call entered a frame under `n` protected calls with the handlers `hs`. -/
def Thread.entered (t : Thread) (c : Closure) (cell want n : Nat) (hs : List Handler) : Thread :=
  { t with
    stack := t.stack.push cell
    captures := t.captures ++ c.upvalues
    frames := { closure := c, ip := 0, base := t.stack.size, captureBase := t.captures.size, want,
                protections := n } :: t.frames
    handlers := hs ++ t.handlers }

/-- The handlers `hs` note the state of the thread. -/
def Thread.Guards (t : Thread) (want n : Nat) (hs : List Handler) : Prop :=
  Group n want t.frames.length t.stack.size t.captures.size hs

/-- What a call comes to: results, a frame of a closure, control for thread `id`, which gets `vs`, or a
fault. The number is that of the protected calls around it. -/
inductive Reply where
  | values (vs : List Value)
  | entered (n : Nat) (c : Closure) (args : List Value)
  | blocked (n id : Nat) (vs : List Value)
  | raised (n : Nat) (fault : Fault)

/-- The number of protected calls around the call that are not over. -/
def Reply.layers : Reply → Nat
  | values _ => 0
  | entered n _ _ | blocked n _ _ | raised n _ => n

/-- What comes of it under one more protected call. -/
def Reply.guarded : Reply → Reply
  | values vs => values (.boolean true :: vs)
  | entered n c args => entered (n + 1) c args
  | blocked n id vs => blocked (n + 1) id vs
  | raised n fault => raised (n + 1) fault

namespace Machine

structure Entered (m m' : Machine) (want n : Nat) (c : Closure) (args : List Value) : Prop where
  alone : m.Alone m'
  fits : c.Fits
  thread : ∃ cell hs, m'.store.cell cell = .multi args ∧ m.current.Guards want n hs ∧
    m'.current = m.current.entered c cell want n hs

/-- The threads to which the running one can hand control, with those that wait then. -/
inductive Switch (m : Machine) : Nat → List Nat → Prop where
  | resume {id : Nat} (suspended : id ∉ m.running :: m.waiting) (inside : id < m.threads.size)
      (alive : (m.thread id).frames ≠ []) : Switch m id (m.running :: m.waiting)
  | yield {id : Nat} {rest : List Nat} (resumer : m.waiting = id :: rest) : Switch m id rest

theorem Switch.ne {m : Machine} {id : Nat} {rest : List Nat} (h : m.Switch id rest)
    (distinct : (m.running :: m.waiting).Nodup) : id ≠ m.running := by
  cases h with
  | resume suspended _ _ => exact fun same => suspended (by simp [same])
  | yield resumer =>
    rw [resumer] at distinct
    intro same
    simp [same] at distinct

/-- Which threads control can go to does not depend on the running one. -/
theorem Switch.of_thread {m : Machine} {f : Thread → Thread} {id : Nat} {rest : List Nat}
    (h : (m.modifyCurrent f).Switch id rest) (other : id ≠ m.running) : m.Switch id rest := by
  cases h with
  | resume suspended inside alive =>
    refine .resume suspended (by simpa using inside) ?_
    rw [thread_modifyCurrent_ne other] at alive
    exact alive
  | yield resumer => exact .yield resumer

structure Switched (m m' : Machine) (want n id : Nat) (vs : List Value) : Prop where
  hosts : m'.hosts = m.hosts
  size : m'.threads.size = m.threads.size
  running : m'.running = id
  switch : m.Switch m'.running m'.waiting
  store : m'.store = (m.deliver m'.running vs).store
  target : m'.thread m'.running = (m.thread m'.running).receive m.store.cells.size
  caller : ∃ hs, m.current.Guards want n hs ∧ m'.thread m.running =
    { m.current with
      awaiting := want
      awaitingProtections := m.current.awaitingProtections + n
      handlers := hs ++ m.current.handlers }
  others : ∀ id, id ≠ m.running → id ≠ m'.running → m'.thread id = m.thread id

/-- A fault leaves the handlers of the protected calls behind, none of which knows of the others. -/
structure Raised (m m' : Machine) (want n : Nat) : Prop where
  alone : m.Alone m'
  thread : ∃ hs, hs.length = n ∧
    (∀ h ∈ hs, h.frames = m.current.frames.length ∧ h.stack = m.current.stack.size ∧
      h.captures = m.current.captures.size ∧ h.wraps = 0) ∧
    (∀ h, hs.getLast? = some h → h.want = want) ∧
    m'.current = { m.current with handlers := hs ++ m.current.handlers }

/-- From `m` a call for `want` results comes to `reply`. -/
inductive Outcome (m : Machine) (want : Nat) :
    Reply → EStateM.Result Fault Machine Unit → Prop where
  | values {m' : Machine} {vs : List Value} (alone : m.Alone m') (same : m'.current = m.current) :
      Outcome m want (.values vs) (.ok () (m'.pushResults want vs))
  | entered {m' : Machine} {n : Nat} {c : Closure} {args : List Value}
      (h : m.Entered m' want n c args) : Outcome m want (.entered n c args) (.ok () m')
  | blocked {m' : Machine} {n id : Nat} {vs : List Value} (h : m.Switched m' want n id vs) :
      Outcome m want (.blocked n id vs) (.ok () m')
  | raised {m' : Machine} {n : Nat} {fault : Fault} (h : m.Raised m' want n) :
      Outcome m want (.raised n fault) (.error fault m')

namespace Outcome

variable {m m' : Machine} {want : Nat}

/-- A fault without protection leaves the running thread as it is. -/
theorem fault {fault : Fault} (alone : m.Alone m') (same : m'.current = m.current) :
    Outcome m want (.raised 0 fault) (.error fault m') :=
  .raised ⟨alone, [], rfl, by simp, by simp, by rw [same]; rfl⟩

theorem failed (h : m.Sane) (fault : Fault) : Outcome m want (.raised 0 fault) (.error fault m) :=
  .fault (.refl h) rfl

theorem finished (h : m.Sane) (vs : List Value) :
    Outcome m want (.values vs) (.ok () (m.pushResults want vs)) :=
  .values (.refl h) rfl

end Outcome

end Machine

/-! ## Protection -/

/-- The innermost of the handlers learns of one more protected call around it. -/
def wrapFirst : List Handler → List Handler
  | [] => []
  | h :: hs => { h with wraps := h.wraps + 1 } :: hs

@[simp] theorem length_wrapFirst (hs : List Handler) : (wrapFirst hs).length = hs.length := by
  cases hs <;> rfl

/-- One more protected call around a group. -/
theorem Group.wrap {n want want' frames stack captures : Nat} {hs : List Handler}
    (h : Group n want frames stack captures hs) :
    Group (n + 1) want' frames stack captures
      (wrapFirst hs ++ [{ frames, stack, captures, want := want' }]) where
  length := by simp [h.length]
  noted g mem := by
    rcases List.mem_append.1 mem with mem | mem
    · cases hs with
      | nil => cases mem
      | cons a as =>
        rcases List.mem_cons.1 mem with rfl | mem
        · exact h.noted a List.mem_cons_self
        · exact h.noted g (List.mem_cons_of_mem _ mem)
    · rw [List.mem_singleton.1 mem]
      exact ⟨rfl, rfl, rfl⟩
  first g head := by
    cases hs with
    | nil =>
      cases head
      simp [← h.length]
    | cons a as =>
      cases head
      have := h.first a rfl
      simp only
      omega
  last g last := by
    rw [List.getLast?_append] at last
    cases last
    rfl

/-- The thread whose innermost handler learns of one more protected call. -/
theorem Thread.modifyHandler_append (t : Thread) (hs rest : List Handler) (some' : hs ≠ []) :
    { t with handlers := hs ++ rest }.modifyHandler (fun h => { h with wraps := h.wraps + 1 }) =
      { t with handlers := wrapFirst hs ++ rest } := by
  cases hs with
  | nil => exact absurd rfl some'
  | cons h hs => rfl

namespace Exec

variable {m : Machine} {want : Nat}

theorem popSpread_apply (n : Nat) (m : Machine) :
    popSpread n m = .ok
      ((m.current.stack.extract (m.current.stack.size - n) m.current.stack.size).toList.flatMap
        fun cell => (m.store.cell cell).spread)
      (m.modifyCurrent fun t => { t with stack := t.stack.shrink (m.current.stack.size - n) }) := rfl

/-- Results that were pushed as one multi-value come back. -/
theorem popSpread_pushResults (h : m.running < m.threads.size) (vs : List Value) :
    popSpread 1 (m.pushResults 0 vs) = .ok vs { m with store := m.store.withCells [.multi vs] } := by
  have stack : (m.pushResults 0 vs).current.stack = m.current.stack.push m.store.cells.size := by
    rw [Machine.current_pushResults h]
    simp [Thread.withCells, slots]
  have top : (m.store.withCells [.multi vs]).cell m.store.cells.size = .multi vs := by
    simp [Store.withCells, Store.cell]
  rw [popSpread_apply, stack]
  congr 1
  · simp only [Machine.pushResults, Machine.store_pushResultsOn, delivered, if_true]
    simp [top, Value.spread]
  · have back : (m.modifyThread m.running (·.withCells m.store.cells.size 1)).modifyThread m.running
        (fun t => { t with stack := t.stack.shrink m.current.stack.size }) = m := by
      rw [Machine.modifyThread_modifyThread]
      apply Machine.modifyThread_of_eq
      simp [Thread.withCells, Machine.current]
    rw [Machine.pushResults, Machine.pushResultsOn_eq, Array.size_push, Nat.add_sub_cancel]
    exact congrArg (fun x : Machine => { x with store := m.store.withCells [.multi vs] }) back

variable {m' : Machine}

/-- A protected call that is over at once. -/
theorem settle_values (h : m.Sane) {vs : List Value}
    (alone : (m.modifyCurrent (·.pushHandler want)).Alone m')
    (same : m'.current = (m.modifyCurrent (·.pushHandler want)).current) :
    m.Outcome want (.values (.boolean true :: vs))
      ((m'.pushResults 0 vs).settle m.running
        (m.modifyCurrent (·.pushHandler want)).current.frames.length
        (m.modifyCurrent (·.pushHandler want)).current.handlers.length want (m'.pushResults 0 vs)) := by
  have before := Machine.Alone.modifyCurrent h (·.pushHandler want)
  have sane := (h.alone before).alone alone
  have inside := sane.running_lt
  have running : m'.running = m.running := alone.running
  have pushed : (m'.pushResults 0 vs).thread m.running =
      m'.current.withCells m'.store.cells.size (slots 0) := by
    rw [← running]
    exact Machine.thread_pushResultsOn_self inside
  have still : (m'.pushResults 0 vs).running = m.running := by
    rw [← running]
    exact Machine.running_pushResultsOn
  have handlers : ((m'.pushResults 0 vs).thread m.running).handlers = m'.current.handlers := by
    rw [pushed]
    rfl
  have frames : ((m'.pushResults 0 vs).thread m.running).frames = m'.current.frames := by
    rw [pushed]
    rfl
  rw [← same]
  unfold Machine.settle
  rw [handlers, if_neg (Nat.lt_irrefl _), if_neg (by simp [still]), frames, if_neg (Nat.lt_irrefl _)]
  simp only [bind_apply, set_apply, popSpread_pushResults inside, modify_apply, pushResults_apply]
  have garbage : m'.Alone { m' with store := m'.store.withCells [.multi vs] } :=
    .store _ sane.closures
  have sane' := sane.alone garbage
  refine .values ?_ ?_
  · exact .trans h before (.trans (h.alone before) alone
      (.trans sane garbage (.modifyCurrent sane' _)))
  · rw [Machine.current_modifyCurrent sane'.running_lt]
    rw [show ({ m' with store := m'.store.withCells [.multi vs] } : Machine).current = m'.current
      from rfl, same, Machine.current_modifyCurrent h.running_lt]
    rfl

/-- The handlers of a call that is under way learn of the protected call around them. -/
theorem wrapped_eq {m : Machine} {id : Nat} {hs rest : List Handler}
    (handlers : (m.thread id).handlers = hs ++ rest) :
    (if rest.length < (m.thread id).handlers.length then
        m.modifyThread id (·.modifyHandler fun h => { h with wraps := h.wraps + 1 })
      else m) = m.modifyThread id ({ · with handlers := wrapFirst hs ++ rest }) := by
  rw [handlers]
  cases hs with
  | nil =>
    rw [if_neg (by simp), Machine.modifyThread_of_eq]
    simp only [wrapFirst]
    rw [← handlers]
  | cons h hs =>
    rw [if_pos (by rw [List.length_append, List.length_cons]; omega)]
    apply Machine.modifyThread_congr
    have := Thread.modifyHandler_append (m.thread id) (h :: hs) rest (by simp)
    rw [← this, ← handlers]

/-- A protected call that goes on in a frame. -/
theorem settle_entered (h : m.Sane) {n : Nat} {c : Closure} {args : List Value}
    (entered : (m.modifyCurrent (·.pushHandler want)).Entered m' 0 n c args) :
    m.Outcome want (.entered (n + 1) c args)
      (m'.settle m.running (m.modifyCurrent (·.pushHandler want)).current.frames.length
        (m.modifyCurrent (·.pushHandler want)).current.handlers.length want m') := by
  have before := Machine.Alone.modifyCurrent h (·.pushHandler want)
  obtain ⟨alone, fits, cell, hs, given, guards, thread⟩ := entered
  have sane := (h.alone before).alone alone
  have running : m'.running = m.running := alone.running
  rw [Machine.current_modifyCurrent h.running_lt] at thread guards ⊢
  have here : m'.thread m.running = (m.current.pushHandler want).entered c cell 0 n hs := by
    rw [← running]
    exact thread
  have inside : m.running < m'.threads.size := by
    rw [← running]
    exact sane.running_lt
  unfold Machine.settle
  rw [wrapped_eq (by rw [here]; rfl)]
  rw [if_neg (by simp [running]), Machine.thread_modifyThread_self inside, here,
    if_pos (by simp [Thread.entered, Thread.pushHandler]), set_apply]
  have sane' := sane.alone (.modifyCurrent sane fun t =>
    { t with handlers := wrapFirst hs ++ (m.current.pushHandler want).handlers })
  refine .entered ⟨?_, fits, cell, wrapFirst hs ++ [_], given, guards.wrap, ?_⟩
  · rw [← running]
    exact .trans h before (.trans (h.alone before) alone (.trans sane (.modifyCurrent sane _)
      (.modifyCurrent sane' _)))
  · show Machine.thread _ m'.running = _
    rw [running, Machine.thread_modifyThread_self (by simpa using inside),
      Machine.thread_modifyThread_self inside, here]
    simp [Thread.entered, Thread.pushHandler, Thread.modifyFrame]

/-- A protected call that hands control to another thread. -/
theorem settle_switched (h : m.Rooted) {n id : Nat} {vs : List Value}
    (switched : (m.modifyCurrent (·.pushHandler want)).Switched m' 0 n id vs) :
    ∃ m'', m'.settle m.running (m.modifyCurrent (·.pushHandler want)).current.frames.length
        (m.modifyCurrent (·.pushHandler want)).current.handlers.length want m' = .ok () m'' ∧
      m.Switched m'' want (n + 1) id vs ∧ m''.waiting = m'.waiting := by
  have noted := Machine.current_modifyCurrent (f := (·.pushHandler want)) h.running_lt
  obtain ⟨hosts, size, running, switch, store, target, ⟨hs, guards, here⟩, others⟩ := switched
  rw [noted] at guards here ⊢
  have inside : m.running < m'.threads.size := by
    rw [size]
    simpa using h.running_lt
  have left : m'.running ≠ m.running := switch.ne h.distinct
  have same : (m.modifyCurrent (·.pushHandler want)).thread m'.running = m.thread m'.running :=
    Machine.thread_modifyCurrent_ne left
  have here : m'.thread m.running = { m.current.pushHandler want with
      awaiting := 0, awaitingProtections := m.current.awaitingProtections + n
      handlers := hs ++ (m.current.pushHandler want).handlers } := here
  unfold Machine.settle
  rw [wrapped_eq (by rw [here])]
  rw [if_pos (by simpa using left), set_apply]
  refine ⟨_, rfl, ⟨hosts, by simpa using size, running, ?_, ?_, ?_, ⟨_, guards.wrap, ?_⟩, ?_⟩, rfl⟩
  · exact switch.of_thread left
  · refine store.trans ?_
    rw [Machine.store_deliver, Machine.store_deliver]
    simp only [Machine.running_modifyThread]
    rw [same]
    rfl
  · simp only [Machine.running_modifyThread]
    rw [Machine.thread_modifyThread_ne left, Machine.thread_modifyThread_ne left, target, same]
    rfl
  · rw [Machine.thread_modifyThread_self (by simpa using inside),
      Machine.thread_modifyThread_self inside, here]
    simp [Thread.pushHandler, Nat.add_assoc]
  · intro id other other'
    rw [Machine.thread_modifyThread_ne other, Machine.thread_modifyThread_ne other,
      others id other other', Machine.thread_modifyCurrent_ne other]

/-- Protection adds a handler while the call is under way and a `true` when it is over. -/
theorem guarded_outcome (h : m.Sane) {action : Exec Unit} {reply : Reply}
    (out : (m.modifyCurrent (·.pushHandler want)).Outcome 0 reply
      (action (m.modifyCurrent (·.pushHandler want)))) :
    m.Outcome want reply.guarded (guarded want action m) := by
  have inside := h.running_lt
  have noted : (m.modifyCurrent (·.pushHandler want)).current = m.current.pushHandler want :=
    Machine.current_modifyCurrent inside
  have alone := Machine.Alone.modifyCurrent h (·.pushHandler want)
  simp only [guarded, bind_apply, modify_apply, get_apply]
  generalize action (m.modifyCurrent (·.pushHandler want)) = r at out ⊢
  cases out with
  | @values m' vs alone' same =>
    exact settle_values h alone' same
  | entered entered => exact settle_entered h entered
  | blocked switched =>
    obtain ⟨m'', settled, switched, -⟩ := settle_switched h.rooted switched
    simp only [Machine.running_modifyCurrent, settled]
    exact .blocked switched
  | @raised m' n fault raised =>
    obtain ⟨alone', hs, length, each, last, thread⟩ := raised
    refine .raised ⟨.trans h alone alone', hs ++ [{ frames := m.current.frames.length, stack := m.current.stack.size, captures := m.current.captures.size, want }], ?_, ?_, ?_, ?_⟩
    · simp [length]
    · intro g mem
      rcases List.mem_append.1 mem with mem | mem
      · have := each g mem
        rw [noted] at this
        exact this
      · rw [List.mem_singleton.1 mem]
        exact ⟨rfl, rfl, rfl, rfl⟩
    · intro g last
      rw [List.getLast?_append] at last
      cases last
      rfl
    · rw [thread, noted]
      simp [Thread.pushHandler]

end Exec

/-! ## What can be called -/

namespace Machine

/-- The running thread may not enter another frame. -/
def AtLimit (m : Machine) : Prop :=
  m.config.maxCallDepth ≤ m.current.frames.length ∨ m.config.maxStack ≤ m.current.stack.size

instance (m : Machine) : Decidable m.AtLimit := inferInstanceAs (Decidable (_ ∨ _))

/-- The machine with the handlers of `n` protected calls, the outermost of which wants `want` results. -/
def guards (m : Machine) (want : Nat) : Nat → Machine
  | 0 => m
  | n + 1 => (m.modifyCurrent (·.pushHandler want)).guards 0 n

/-- The function that the protected call of the first argument comes to, through any number of further
protected calls, and its arguments. -/
def protectedTarget (m : Machine) : List Value → Except Fault (Value × List Value)
  | [] => .error (.call Value.nil.typeName)
  | .core .pcall :: args => m.protectedTarget args
  | callee :: rest => m.callTarget callee rest

/-- The function that a call comes to in the end, and its arguments. -/
def finalTarget (m : Machine) (callee : Value) (args : List Value) : Except Fault (Value × List Value) :=
  match m.callTarget callee args with
  | .ok (.core .pcall, args) => m.protectedTarget args
  | found => found

section Targets

variable {m m' : Machine} (store : m'.store = m.store) (config : m'.config = m.config)
include store config

/-- What a call runs depends on the store and the limits only. -/
theorem callTarget_congr (callee : Value) (args : List Value) :
    m'.callTarget callee args = m.callTarget callee args := by
  unfold callTarget metamethod
  rw [store, config]

theorem protectedTarget_congr (args : List Value) :
    m'.protectedTarget args = m.protectedTarget args := by
  induction args with
  | nil => rfl
  | cons v rest ih =>
    by_cases nested : v = .core .pcall
    · subst nested
      exact ih
    · rw [protectedTarget, protectedTarget]
      · exact callTarget_congr store config v rest
      · exact nested
      · exact nested

theorem finalTarget_congr (callee : Value) (args : List Value) :
    m'.finalTarget callee args = m.finalTarget callee args := by
  unfold finalTarget
  rw [callTarget_congr store config]
  split
  · exact protectedTarget_congr store config _
  · rfl

end Targets

end Machine

/-- What the reply says fits the function that was called in the end: a closure or a compiled text is
entered, and control goes to the thread that is resumed or that waits for a yield. -/
def Reply.Follows (m : Machine) (found : Except Fault (Value × List Value)) : Reply → Prop
  | entered _ c given => (∃ id, found = .ok (.closure id, given) ∧ m.store.closures[id]? = some c) ∨
      ∃ args, found = .ok (.core .dostring, args) ∧ c.IsChunk ∧ given = []
  | blocked _ id vs =>
    (∃ args, found = .ok (.core .yield, args) ∧ m.waiting.head? = some id ∧
      vs = .boolean true :: args) ∨ found = .ok (.core .resume, .thread id :: vs)
  | values _ | raised _ _ => True

theorem Reply.Follows.guarded {m : Machine} {found : Except Fault (Value × List Value)} {reply : Reply}
    (h : reply.Follows m found) : reply.guarded.Follows m found := by
  cases reply <;> exact h

namespace Exec

variable {m m' : Machine} {want : Nat}

/-- A call of a closure enters a frame unless a limit is reached. -/
theorem enter_cases (h : m.Sane) (c : Closure) (args : List Value) (want n : Nat) :
    m.AtLimit ∧ enter c args want n m = .error .stackOverflow m ∨
      ¬m.AtLimit ∧ ∃ m', enter c args want n m = .ok () m' ∧ m.Alone m' ∧
        m'.store.cell m.store.cells.size = .multi args ∧
        m'.current = m.current.entered c m.store.cells.size want n [] := by
  unfold enter
  simp only [bind_apply, get_apply]
  split <;> rename_i limit
  · exact Or.inl ⟨limit, rfl⟩
  · refine Or.inr ⟨limit, ?_⟩
    have framed := Machine.Alone.modifyCurrent h fun t =>
      { t with captures := t.captures ++ c.upvalues
               frames := { closure := c, ip := 0, base := m.current.stack.size
                           captureBase := m.current.captures.size, want, protections := n } :: t.frames }
    have sane := h.alone framed
    refine ⟨_, rfl, .trans h framed (.pushResults sane 1 [.multi args]), by simp [Machine.push,
      Machine.pushOn, Store.newCell, Store.cell], ?_⟩
    show (Machine.pushResults _ 1 [.multi args]).current = _
    rw [Machine.current_pushResults sane.running_lt, Machine.current_modifyCurrent h.running_lt]
    simp [Thread.withCells, Thread.entered, slots]

theorem enter_outcome (h : m.Sane) {c : Closure} (fits : c.Fits) (args : List Value) (want : Nat) :
    m.AtLimit ∧ m.Outcome want (.raised 0 .stackOverflow) (enter c args want 0 m) ∨
      ¬m.AtLimit ∧ m.Outcome want (.entered 0 c args) (enter c args want 0 m) := by
  rcases enter_cases h c args want 0 with ⟨limit, failed⟩ | ⟨free, m', ok, alone, given, thread⟩
  · exact Or.inl ⟨limit, failed ▸ .failed h _⟩
  · exact Or.inr ⟨free, ok ▸ .entered ⟨alone, fits, _, [], given, .empty .., thread⟩⟩

theorem onStore_apply {α : Type} (action : HostAction α) (m : Machine) :
    onStore action m = match action.run.run m.store with
      | (.ok a, s) => .ok a { m with store := s }
      | (.error fault, s) => .error fault { m with store := s } := rfl

/-- A function of the host leaves the threads alone. -/
theorem callHost_cases (h : m.Sane) (id : Nat) (args : List Value) :
    ∃ m', m.Alone m' ∧ m'.current = m.current ∧
      ((∃ vs, callHost id args m = .ok vs m') ∨ ∃ fault, callHost id args m = .error fault m') := by
  simp only [callHost, bind_apply, get_apply]
  cases found : m.hosts[id]? with
  | none => exact ⟨m, .refl h, rfl, Or.inl ⟨[], rfl⟩⟩
  | some f =>
    have honest := h.hosts f (Array.mem_of_getElem? found) args m.store
    have fits : ∀ c ∈ ((f.run args).run.run m.store).2.closures, c.Fits := fun c mem =>
      (honest c mem).elim (h.closures c) Closure.IsChunk.fits
    refine ⟨{ m with store := ((f.run args).run.run m.store).2 }, .store _ fits, rfl, ?_⟩
    simp only [onStore_apply]
    rcases (f.run args).run.run m.store with ⟨_ | vs, s⟩
    · exact Or.inr ⟨_, rfl⟩
    · exact Or.inl ⟨_, rfl⟩

/-- A new thread leaves the others alone. -/
theorem alone_ofClosure (h : m.Sane) {c : Closure} (fits : c.Fits) :
    m.Alone { m with threads := m.threads.push (.ofClosure c) } ∧
      ({ m with threads := m.threads.push (.ofClosure c) } : Machine).current = m.current := by
  have old : ∀ id, id < m.threads.size →
      ({ m with threads := m.threads.push (.ofClosure c) } : Machine).thread id = m.thread id := by
    intro id low
    simp only [Machine.thread]
    rw [Array.getElem?_push_lt low, Array.getElem?_eq_getElem low]
  refine ⟨⟨rfl, rfl, rfl, by simp, fun id low _ => old id low, fun id low high => ?_, h.closures⟩,
    old _ h.running_lt⟩
  simp only [Array.size_push] at high
  have last : id = m.threads.size := by omega
  exact ⟨c, fits, by simp [Machine.thread, last]⟩

theorem create_outcome (h : m.Sane) (args : List Value) (want : Nat) :
    ∃ reply, m.Outcome want reply (create args want m) ∧ reply.layers = 0 ∧
      reply.Follows m (.ok (.core .create, args)) := by
  simp only [create, bind_apply, get_apply]
  split
  · rename_i id _
    cases found : m.store.closures[id]? with
    | none => exact ⟨_, .failed h _, rfl, trivial⟩
    | some c =>
      obtain ⟨alone, same⟩ := alone_ofClosure h (h.closures c (Array.mem_of_getElem? found))
      exact ⟨_, .values alone same, rfl, trivial⟩
  · exact ⟨_, .failed h _, rfl, trivial⟩

/-- Handing control to another thread, which gets the values. -/
theorem switched_of_switch (h : m.Rooted) {id : Nat} {rest : List Nat} (switch : m.Switch id rest)
    (want : Nat) (vs : List Value) :
    m.Switched { (m.modifyCurrent fun t => { t with awaiting := want }).deliver
      id vs with running := id, waiting := rest } want 0 id vs := by
  have other := switch.ne h.distinct
  have inside : id < m.threads.size := by
    cases switch with
    | resume _ inside _ => exact inside
    | yield resumer => exact h.bound id (by simp [resumer])
  have same : (m.modifyCurrent fun t => { t with awaiting := want }).thread id = m.thread id :=
    Machine.thread_modifyCurrent_ne other
  refine ⟨by simp, by simp, rfl, switch, ?_, ?_, ⟨[], .empty .., ?_⟩, fun k away away' => ?_⟩
  · dsimp only
    rw [Machine.store_deliver, Machine.store_deliver, same]
    rfl
  · rw [Machine.thread_withRunning, Machine.thread_deliver_self (by simpa using inside), same]
    rfl
  · rw [Machine.thread_withRunning, Machine.thread_deliver_ne (Ne.symm other)]
    exact Machine.current_modifyCurrent h.running_lt
  · rw [Machine.thread_withRunning, Machine.thread_deliver_ne away', Machine.thread_modifyCurrent_ne away]

theorem threadArgument_cases (function : String) (args : List Value) (m : Machine) :
    (∃ id, threadArgument function args m = .ok id m ∧ args.head? = some (.thread id)) ∨
      ∃ fault, threadArgument function args m = .error fault m := by
  unfold threadArgument
  cases args.head? with
  | none => exact Or.inr ⟨_, rfl⟩
  | some v =>
    cases v with
    | thread id => exact Or.inl ⟨id, rfl, rfl⟩
    | _ => exact Or.inr ⟨_, rfl⟩

theorem resume_outcome (h : m.Sane) (args : List Value) (want : Nat) :
    ∃ reply, m.Outcome want reply (resume args want m) ∧ reply.layers = 0 ∧
      reply.Follows m (.ok (.core .resume, args)) := by
  simp only [resume, bind_apply]
  rcases threadArgument_cases "coroutine.resume" args m with ⟨id, ok, head⟩ | ⟨fault, failed⟩
  · simp only [ok, get_apply]
    split
    · exact ⟨_, .failed h _, rfl, trivial⟩
    · split
      · exact ⟨_, .failed h _, rfl, trivial⟩
      · split
        · exact ⟨_, .finished h _, rfl, trivial⟩
        · rename_i free inside alive
          have switch : m.Switch id (m.running :: m.waiting) := by
            refine .resume ?_ (by omega) ?_
            · simp only [not_or, List.contains_eq_mem, decide_eq_true_eq] at free
              simp only [List.mem_cons, not_or]
              exact ⟨Ne.symm free.1, free.2⟩
            · simpa [Thread.isDead] using alive
          have given : args = .thread id :: args.drop 1 := by
            cases args with
            | nil => cases head
            | cons first others =>
              cases head
              rfl
          refine ⟨.blocked 0 id (args.drop 1), ?_, rfl, Or.inr (by rw [given]; rfl)⟩
          simpa only [set_apply, Machine.running_deliver, Machine.waiting_deliver,
            Machine.running_modifyCurrent, Machine.waiting_modifyCurrent]
            using Machine.Outcome.blocked (switched_of_switch h.rooted switch want (args.drop 1))
  · simp only [failed]
    exact ⟨_, .failed h _, rfl, trivial⟩

theorem yield_outcome (h : m.Sane) (args : List Value) (want : Nat) :
    ∃ reply, m.Outcome want reply (yield args want m) ∧ reply.layers = 0 ∧
      reply.Follows m (.ok (.core .yield, args)) := by
  simp only [yield, bind_apply, get_apply]
  cases waiting : m.waiting with
  | nil => exact ⟨_, .failed h _, rfl, trivial⟩
  | cons resumer rest =>
    refine ⟨.blocked 0 resumer (.boolean true :: args), ?_, rfl, 
      Or.inl ⟨args, rfl, by simp [waiting], rfl⟩⟩
    simp only [set_apply, Machine.deliver_control]
    exact .blocked (switched_of_switch h.rooted (.yield waiting) want (.boolean true :: args))

theorem status_outcome (h : m.Sane) (args : List Value) (want : Nat) :
    ∃ reply, m.Outcome want reply (callCoreWith (throw .stackOverflow) .status args want m) ∧
      reply.layers = 0 ∧ reply.Follows m (.ok (.core .status, args)) := by
  simp only [callCoreWith, bind_apply]
  rcases threadArgument_cases "coroutine.status" args m with ⟨id, ok, -⟩ | ⟨fault, failed⟩
  · simp only [ok, get_apply]
    exact ⟨_, .finished h _, rfl, trivial⟩
  · simp only [failed]
    exact ⟨_, .failed h _, rfl, trivial⟩

theorem dostring_outcome (h : m.Sane) (args : List Value) (want : Nat) :
    ∃ reply, m.Outcome want reply (dostring args want m) ∧ reply.layers = 0 ∧
      reply.Follows m (.ok (.core .dostring, args)) := by
  unfold dostring
  have refused : ∀ fault : Fault, ∃ reply, m.Outcome want reply ((throw fault : Exec Unit) m) ∧
      reply.layers = 0 ∧ reply.Follows m (.ok (.core .dostring, args)) :=
    fun fault => ⟨_, .failed h fault, rfl, trivial⟩
  cases args.head? with
  | none => exact refused _
  | some v =>
    cases v with
    | string text =>
      cases compiled : Compiler.compileSource text "dostring" with
      | error fault =>
        simp only [compiled, bind_apply, ofExcept_error]
        exact refused fault
      | ok unit =>
        simp only [compiled, bind_apply, ofExcept_ok]
        have chunk : Closure.IsChunk ⟨unit, #[]⟩ := ⟨rfl, text, "dostring", compiled⟩
        rcases enter_outcome h chunk.fits [] want with ⟨-, out⟩ | ⟨-, out⟩
        · exact ⟨_, out, rfl, trivial⟩
        · exact ⟨_, out, rfl, Or.inr ⟨_, rfl, chunk, rfl⟩⟩
    | _ => exact refused _

/-- Core functions other than the protected call. -/
theorem callCoreWith_outcome (h : m.Sane) {f : CoreFunction} (other : f ≠ .pcall)
    (protectedCall : Exec Unit) (args : List Value) (want : Nat) :
    ∃ reply, m.Outcome want reply (callCoreWith protectedCall f args want m) ∧ reply.layers = 0 ∧
      reply.Follows m (.ok (.core f, args)) := by
  cases f with
  | pcall => exact absurd rfl other
  | create => exact create_outcome h args want
  | resume => exact resume_outcome h args want
  | yield => exact yield_outcome h args want
  | status => exact status_outcome h args want
  | dostring => exact dostring_outcome h args want

/-- The protected call of a closure. -/
theorem protectedEnter_outcome (h : m.Sane) {c : Closure} (fits : c.Fits) (args : List Value)
    (want : Nat) :
    (m.guards want 1).AtLimit ∧
        m.Outcome want (.raised 1 .stackOverflow) (enter c args want 1 (m.guards want 1)) ∨
      ¬(m.guards want 1).AtLimit ∧
        m.Outcome want (.entered 1 c args) (enter c args want 1 (m.guards want 1)) := by
  have before : m.Alone (m.guards want 1) := .modifyCurrent h (·.pushHandler want)
  have sane := h.alone before
  have noted : (m.guards want 1).current = m.current.pushHandler want :=
    Machine.current_modifyCurrent h.running_lt
  rcases enter_cases sane c args want 1 with ⟨limit, failed⟩ | ⟨free, m', ok, alone, given, thread⟩
  · rw [failed]
    refine Or.inl ⟨limit, .raised ⟨before, [_], rfl, ?_, ?_, noted⟩⟩
    · intro g mem
      rw [List.mem_singleton.1 mem]
      exact ⟨rfl, rfl, rfl, rfl⟩
    · rintro g ⟨⟩
      rfl
  · rw [ok]
    rw [noted] at thread
    exact Or.inr ⟨free, .entered ⟨.trans h before alone, fits, _, _, given, (Group.empty 0 ..).wrap,
      thread⟩⟩

/-- A call of anything but the protected call. -/
theorem call_plain (h : m.Sane) {callee target : Value} {args given : List Value}
    (found : m.callTarget callee args = .ok (target, given)) (other : target ≠ .core .pcall)
    (want : Nat) :
    ∃ reply, m.Outcome want reply (call callee args want m) ∧ reply.layers = 0 ∧
      reply.Follows m (.ok (target, given)) := by
  simp only [call, bind_apply, get_apply, found, ofExcept_ok]
  cases target with
  | closure id =>
    simp only [bind_apply, get_apply]
    cases known : m.store.closures[id]? with
    | none => exact ⟨_, .failed h _, rfl, trivial⟩
    | some c =>
      rcases enter_outcome h (h.closures c (Array.mem_of_getElem? known)) given want with
        ⟨-, out⟩ | ⟨-, out⟩
      · exact ⟨_, out, rfl, trivial⟩
      · exact ⟨_, out, rfl, Or.inl ⟨id, rfl, known⟩⟩
  | host id name =>
    simp only [bind_apply]
    obtain ⟨m', alone, same, ⟨vs, ok⟩ | ⟨fault, failed⟩⟩ := callHost_cases h id given
    · simp only [ok]
      exact ⟨_, .values alone same, rfl, trivial⟩
    · simp only [failed]
      exact ⟨_, .fault alone same, rfl, trivial⟩
  | core f =>
    have itself : f ≠ .pcall := fun same => other (by rw [same])
    exact callCoreWith_outcome h itself (pcall given want) given want
  | _ => exact ⟨_, .failed h _, rfl, trivial⟩

end Exec

/-- What comes of a call under `n` protected calls; `checked` says that the protected call finds out by
itself that the call fails. -/
def Reply.layered (n : Nat) (checked : Bool) : Reply → Reply
  | values vs => values (List.replicate n (Value.boolean true) ++ vs)
  | entered k c args => entered (k + n) c args
  | blocked k id vs => blocked (k + n) id vs
  | raised k fault =>
    if checked then
      values (List.replicate (n - 1) (Value.boolean true) ++ [Value.boolean false, fault.toValue])
    else raised (k + n) fault

theorem Reply.layered_succ {n : Nat} (some' : 1 ≤ n) (checked : Bool) (reply : Reply) :
    reply.layered (n + 1) checked = (reply.layered n checked).guarded := by
  obtain ⟨k, rfl⟩ : ∃ k, n = k + 1 := ⟨n - 1, by omega⟩
  cases reply with
  | raised _ fault => cases checked <;> rfl
  | _ => rfl

namespace Machine

/-- The protected call itself finds out whether the call fails. -/
def checks (m : Machine) (callee : Value) (args : List Value) : Bool :=
  match m.callTarget callee args with
  | .ok (.closure id, _) => m.store.closures[id]?.isNone
  | .ok (.core _, _) => false
  | _ => true

/-- Under `n` protected calls, `r` is what the call comes to by itself in layers. -/
structure Layered (m : Machine) (callee : Value) (args : List Value) (want n : Nat) (reply : Reply)
    (r : EStateM.Result Fault Machine Unit) : Prop where
  plain : (m.guards want n).Outcome 0 reply (Exec.call callee args 0 (m.guards want n))
  single : reply.layers = 0
  follows : reply.Follows m (m.callTarget callee args)
  guarded : m.Outcome want (reply.layered n (m.checks callee args)) r

namespace Layered

variable {m : Machine} {callee : Value} {args : List Value} {want n : Nat} {reply : Reply}
  {r : EStateM.Result Fault Machine Unit}

theorem layers_le (h : m.Layered callee args want n reply r) :
    (reply.layered n (m.checks callee args)).layers ≤ n := by
  have none' := h.single
  cases reply with
  | values vs => exact Nat.zero_le n
  | raised k fault =>
    simp only [Reply.layered]
    split
    · exact Nat.zero_le n
    · simp only [Reply.layers] at none' ⊢
      omega
  | entered k _ _ | blocked k _ _ =>
    simp only [Reply.layers, Reply.layered] at none' ⊢
    omega

theorem follows_layered (h : m.Layered callee args want n reply r) :
    (reply.layered n (m.checks callee args)).Follows m (m.callTarget callee args) := by
  have follows := h.follows
  cases reply with
  | raised k fault =>
    simp only [Reply.layered]
    split <;> trivial
  | values _ | entered _ _ _ | blocked _ _ _ => exact follows

end Layered

end Machine

namespace Exec

variable {m m' : Machine} {want : Nat}

/-- What a function of the host does does not depend on threads. -/
theorem callHost_modifyCurrent (m : Machine) (f : Thread → Thread) (id : Nat) (args : List Value) :
    callHost id args (m.modifyCurrent f) = match callHost id args m with
      | .ok vs m' => .ok vs (m'.modifyCurrent f)
      | .error fault m' => .error fault (m'.modifyCurrent f) := by
  simp only [callHost, bind_apply, get_apply, Machine.hosts_modifyCurrent]
  cases m.hosts[id]? with
  | none => rfl
  | some g =>
    simp only [onStore_apply, Machine.store_modifyCurrent]
    rcases (g.run args).run.run m.store with ⟨_ | vs, s⟩ <;> rfl

/-- The protected call finds out that the call fails. -/
theorem layered_refused (h : m.Sane) {callee : Value} {rest : List Value} {fault : Fault}
    (checked : m.checks callee rest = true)
    (plain : call callee rest 0 (m.guards want 1) = .error fault (m.guards want 1)) :
    m.Layered callee rest want 1 (.raised 0 fault) (pushFailure want fault m) := by
  refine ⟨plain ▸ .failed (h.alone (.modifyCurrent h _)) fault, rfl, trivial, ?_⟩
  rw [checked]
  exact .finished h _

/-- The protected call of anything that does not come to the protected call. -/
theorem pcall_single (h : m.Sane) {callee : Value} {rest : List Value}
    (other : ∀ given, m.callTarget callee rest ≠ .ok (.core .pcall, given)) (want : Nat) :
    ∃ reply, m.Layered callee rest want 1 reply (pcall (callee :: rest) want m) := by
  have sane : (m.guards want 1).Sane := h.alone (.modifyCurrent h _)
  have itself : callee ≠ .core .pcall := fun same => other rest (by rw [same]; rfl)
  have same : (m.guards want 1).callTarget callee rest = m.callTarget callee rest := rfl
  rw [pcall]
  case x_2 => exact itself
  simp only [bind_apply, get_apply]
  cases target : m.callTarget callee rest with
  | error fault =>
    refine ⟨_, layered_refused h (by simp [Machine.checks, target]) ?_⟩
    simp only [call, bind_apply, get_apply, same, target, ofExcept_error]
  | ok r =>
    obtain ⟨v, given⟩ := r
    have plain (v' : Value) (found : m.callTarget callee rest = .ok (v', given)) :
        ∃ reply, (m.guards want 1).Outcome 0 reply (call callee rest 0 (m.guards want 1)) ∧
          reply.layers = 0 ∧ reply.Follows m (.ok (v', given)) := by
      refine call_plain sane (same.trans found) (fun itself => other given ?_) 0
      rw [found, itself]
    have follows {reply : Reply} (fits : reply.Follows m (.ok (v, given))) :
        reply.Follows m (m.callTarget callee rest) := target ▸ fits
    cases v with
    | closure id =>
      simp only [bind_apply, get_apply]
      cases known : m.store.closures[id]? with
      | none =>
        refine ⟨_, layered_refused h (by simp [Machine.checks, target, known]) ?_⟩
        have known' : (m.guards want 1).store.closures[id]? = none := known
        simp only [call, bind_apply, get_apply, same, target, ofExcept_ok, known', throw_apply]
      | some c =>
        have fits := h.closures c (Array.mem_of_getElem? known)
        have unchecked : m.checks callee rest = false := by simp [Machine.checks, target, known]
        have known' : (m.guards want 1).store.closures[id]? = some c := known
        have entering : call callee rest 0 (m.guards want 1) = enter c given 0 0 (m.guards want 1) := by
          simp only [call, bind_apply, get_apply, same, target, ofExcept_ok, known']
        rcases enter_outcome sane fits given 0 with ⟨limit, out⟩ | ⟨free, out⟩
        · refine ⟨.raised 0 .stackOverflow, entering ▸ out, rfl, follows trivial, ?_⟩
          rcases protectedEnter_outcome h fits given want with ⟨-, out'⟩ | ⟨free, -⟩
          · rw [unchecked]
            exact out'
          · exact absurd limit free
        · refine ⟨.entered 0 c given, entering ▸ out, rfl, follows (Or.inl ⟨id, rfl, known⟩), ?_⟩
          rcases protectedEnter_outcome h fits given want with ⟨limit, -⟩ | ⟨-, out'⟩
          · exact absurd limit free
          · exact out'
    | host id name =>
      have checked : m.checks callee rest = true := by simp [Machine.checks, target]
      have passed : callHost id given (m.guards want 1) = _ :=
        callHost_modifyCurrent m (·.pushHandler want) id given
      have calling : call callee rest 0 (m.guards want 1) =
          (callHost id given >>= fun results => pushResults 0 results) (m.guards want 1) := by
        simp only [call, bind_apply, get_apply, same, target, ofExcept_ok]
      simp only [bind_apply] at calling
      simp only [bind_apply, get_apply]
      obtain ⟨m', alone, same, which⟩ := callHost_cases h id given
      obtain ⟨m₁, alone₁, same₁, which₁⟩ := callHost_cases sane id given
      rcases which with ⟨vs, ok⟩ | ⟨fault, failed⟩
      · simp only [ok] at passed
        rcases which₁ with ⟨vs₁, ok₁⟩ | ⟨fault, failed₁⟩
        · rw [ok₁] at passed
          cases passed
          simp only [ok, bind_apply, set_apply]
          refine ⟨.values vs, ?_, rfl, follows trivial, .values alone same⟩
          rw [calling, ok₁]
          exact .values alone₁ same₁
        · rw [failed₁] at passed
          cases passed
      · simp only [failed] at passed
        rcases which₁ with ⟨vs₁, ok₁⟩ | ⟨fault, failed₁⟩
        · rw [ok₁] at passed
          cases passed
        · rw [failed₁] at passed
          cases passed
          simp only [failed, bind_apply, set_apply]
          refine ⟨.raised 0 fault, ?_, rfl, follows trivial, ?_⟩
          · rw [calling, failed₁]
            exact .fault alone₁ same₁
          · rw [checked]
            exact .values alone same
    | core f =>
      have unchecked : m.checks callee rest = false := by simp [Machine.checks, target]
      obtain ⟨reply, out, none', fits⟩ := plain _ target
      have calling : call callee rest 0 (m.guards want 1) =
          callCoreWith (throw .stackOverflow) f given 0 (m.guards want 1) := by
        simp only [call, bind_apply, get_apply, same, target, ofExcept_ok]
        cases f with
        | pcall => exact absurd target (other given)
        | _ => rfl
      refine ⟨reply, out, none', follows fits, ?_⟩
      rw [calling] at out
      have layer : reply.layered 1 false = reply.guarded := by cases reply <;> rfl
      rw [unchecked, layer]
      exact guarded_outcome h out
    | _ =>
      refine ⟨_, layered_refused h (by simp [Machine.checks, target]) ?_⟩
      simp only [call, bind_apply, get_apply, same, target, ofExcept_ok, throw_apply]

/-- A chain of protected calls. -/
theorem pcall_chain (h : m.Sane) {callee : Value} {rest : List Value}
    (other : ∀ given, m.callTarget callee rest ≠ .ok (.core .pcall, given)) (n want : Nat) :
    ∃ reply, m.Layered callee rest want (n + 1) reply
      (pcall (List.replicate n (Value.core .pcall) ++ callee :: rest) want m) := by
  induction n generalizing m want with
  | zero => exact pcall_single h other want
  | succ n ih =>
    have sane : (m.modifyCurrent (·.pushHandler want)).Sane := h.alone (.modifyCurrent h _)
    obtain ⟨reply, layered⟩ := ih sane other 0
    rw [List.replicate_succ, List.cons_append, pcall]
    refine ⟨reply, layered.plain, layered.single, layered.follows, ?_⟩
    rw [Reply.layered_succ (by omega)]
    exact guarded_outcome h layered.guarded

/-- The protected call of a value whose call comes back to the protected call. -/
theorem pcall_itself (h : m.Sane) {callee : Value} {rest given : List Value}
    (found : m.callTarget callee rest = .ok (.core .pcall, given)) (other : callee ≠ .core .pcall)
    (want : Nat) : m.Outcome want (.raised 1 .stackOverflow) (pcall (callee :: rest) want m) := by
  have sane := h.alone (.modifyCurrent h (·.pushHandler want))
  rw [pcall]
  case x_2 => exact other
  simp only [bind_apply, get_apply, found]
  exact guarded_outcome h (.failed sane .stackOverflow)

theorem pcall_outcome (h : m.Sane) (args : List Value) (want : Nat) :
    ∃ reply, m.Outcome want reply (pcall args want m) ∧
      (args.head? ≠ some (Value.core .pcall) → reply.layers ≤ 1) ∧
      reply.Follows m (m.protectedTarget args) := by
  induction args generalizing m want with
  | nil => exact ⟨_, .finished h _, fun _ => Nat.zero_le 1, trivial⟩
  | cons callee rest ih =>
    by_cases nested : callee = .core .pcall
    · subst nested
      obtain ⟨reply, out, -, follows⟩ := ih (h.alone (.modifyCurrent h (·.pushHandler want))) 0
      have same : (m.modifyCurrent (·.pushHandler want)).protectedTarget rest =
          m.protectedTarget rest :=
        Machine.protectedTarget_congr (Machine.store_modifyCurrent (f := (·.pushHandler want))) rfl rest
      rw [same] at follows
      rw [pcall]
      exact ⟨reply.guarded, guarded_outcome h out, fun ne => absurd rfl ne, follows.guarded⟩
    · have direct : m.protectedTarget (callee :: rest) = m.callTarget callee rest := by
        rw [Machine.protectedTarget]
        exact nested
      rw [direct]
      by_cases itself : ∃ given, m.callTarget callee rest = .ok (.core .pcall, given)
      · obtain ⟨given, found⟩ := itself
        exact ⟨_, pcall_itself h found nested want, fun _ => Nat.le_refl 1, trivial⟩
      · obtain ⟨reply, layered⟩ := pcall_single h (fun given found => itself ⟨given, found⟩) want
        exact ⟨_, layered.guarded, fun _ => layered.layers_le, layered.follows_layered⟩

/-- A call of any value. Only a protected call of a protected call has more than one layer. -/
theorem call_outcome (h : m.Sane) (callee : Value) (args : List Value) (want : Nat) :
    ∃ reply, m.Outcome want reply (call callee args want m) ∧
      ((∀ rest, m.callTarget callee args ≠ .ok (.core .pcall, .core .pcall :: rest)) →
        reply.layers ≤ 1) ∧
      reply.Follows m (m.finalTarget callee args) := by
  cases target : m.callTarget callee args with
  | error fault =>
    simp only [call, bind_apply, get_apply, target, ofExcept_error]
    exact ⟨_, .failed h fault, fun _ => Nat.zero_le 1, trivial⟩
  | ok r =>
    obtain ⟨v, given⟩ := r
    by_cases itself : v = .core .pcall
    · subst itself
      obtain ⟨reply, out, few, follows⟩ := pcall_outcome h given want
      have final : m.finalTarget callee args = m.protectedTarget given := by
        simp only [Machine.finalTarget, target]
      simp only [call, bind_apply, get_apply, target, ofExcept_ok]
      refine ⟨reply, out, fun once => few fun nested => ?_, by rw [final]; exact follows⟩
      cases given with
      | nil => cases nested
      | cons first rest =>
        cases nested
        exact once rest rfl
    · obtain ⟨reply, out, none', follows⟩ := call_plain h target itself want
      have final : m.finalTarget callee args = .ok (v, given) := by
        simp only [Machine.finalTarget, target]
        split
        · rename_i same
          cases same
          exact absurd rfl itself
        · rfl
      exact ⟨reply, out, fun _ => by omega, by rw [final]; exact follows⟩

end Exec

end ScriptEngine
