import Mathlib
import ScriptEngine.Machine.Run

/-!
# Threads and cells of a machine

The small facts behind every proof about the machine: what a thread looks like after another one was
changed, and in closed form what pushing results does. `delivered want vs` are the values that someone
who wants `want` results finds on the stack, and `slots want` is their number.
-/

set_option linter.dupNamespace false

namespace ScriptEngine

-- The equations of the machine's functions are worked out here, and not again in each proof that opens one.
attribute [grind =] Exec.perform Exec.step Exec.pcall Exec.create Exec.yield Exec.call Exec.callHost Exec.compare
  Machine.thread Machine.current Machine.modifyThread Machine.pushResults Machine.unwindFrom Machine.run
  Thread.modifyFrame Thread.cell? Thread.pushHandler Thread.restore Store.cell Store.metatable? Store.chainValue?
  Value.isNil Value.isTruthy Value.spread

/-- The number of stack slots that results for someone who wants `want` of them take. -/
def slots (want : Nat) : Nat := if want = 0 then 1 else want

/-- The values in those slots. -/
def delivered (want : Nat) (vs : List Value) : List Value :=
  if want = 0 then [.multi vs] else Value.adjust want vs

theorem length_adjust (n : Nat) (vs : List Value) : (Value.adjust n vs).length = n := by
  simp only [Value.adjust, List.length_append, List.length_take, List.length_replicate]
  omega

@[simp] theorem length_delivered (want : Nat) (vs : List Value) :
    (delivered want vs).length = slots want := by
  unfold delivered slots
  split
  · rfl
  · exact length_adjust want vs

theorem slots_pos (want : Nat) : 1 ≤ slots want := by
  unfold slots
  split <;> omega

/-- The store with values in new cells. -/
def Store.withCells (s : Store) (vs : List Value) : Store := { s with cells := s.cells ++ vs.toArray }

/-- The thread with new cells on top of its stack. -/
def Thread.withCells (t : Thread) (start count : Nat) : Thread :=
  { t with stack := t.stack ++ Array.range' start count }

theorem Thread.frames_withCells (t : Thread) (start count : Nat) :
    (t.withCells start count).frames = t.frames := rfl

/-- A thread that gets what it waited for. -/
def Thread.receive (t : Thread) (cell : Nat) : Thread :=
  { t with handlers := t.handlers.drop t.awaitingProtections, awaitingProtections := 0 }.withCells cell
    (slots t.awaiting)

namespace Machine

variable {m : Machine} {id k : Nat} {f : Thread → Thread}

@[simp] theorem running_modifyThread : (m.modifyThread id f).running = m.running := rfl
@[simp] theorem waiting_modifyThread : (m.modifyThread id f).waiting = m.waiting := rfl
@[simp] theorem store_modifyThread : (m.modifyThread id f).store = m.store := rfl
@[simp] theorem config_modifyThread : (m.modifyThread id f).config = m.config := rfl
@[simp] theorem hosts_modifyThread : (m.modifyThread id f).hosts = m.hosts := rfl
@[simp] theorem globals_modifyThread : (m.modifyThread id f).globals = m.globals := rfl

@[simp] theorem size_modifyThread : (m.modifyThread id f).threads.size = m.threads.size := by
  simp [modifyThread]

theorem thread_modifyThread_self (h : id < m.threads.size) :
    (m.modifyThread id f).thread id = f (m.thread id) := by
  simp [modifyThread, thread, Array.getElem_modify, h]

theorem thread_modifyThread_ne (h : k ≠ id) : (m.modifyThread id f).thread k = m.thread k := by
  simp [modifyThread, thread, Array.getElem?_modify, Ne.symm h]

@[simp] theorem running_modifyCurrent : (m.modifyCurrent f).running = m.running := rfl
@[simp] theorem waiting_modifyCurrent : (m.modifyCurrent f).waiting = m.waiting := rfl
@[simp] theorem store_modifyCurrent : (m.modifyCurrent f).store = m.store := rfl
@[simp] theorem config_modifyCurrent : (m.modifyCurrent f).config = m.config := rfl
@[simp] theorem hosts_modifyCurrent : (m.modifyCurrent f).hosts = m.hosts := rfl
@[simp] theorem globals_modifyCurrent : (m.modifyCurrent f).globals = m.globals := rfl

@[simp] theorem size_modifyCurrent : (m.modifyCurrent f).threads.size = m.threads.size :=
  size_modifyThread

theorem current_modifyCurrent (h : m.running < m.threads.size) :
    (m.modifyCurrent f).current = f m.current :=
  thread_modifyThread_self h

theorem current_withStore (s : Store) : ({ m with store := s } : Machine).current = m.current := rfl

theorem thread_withRunning (running : Nat) (waiting : List Nat) (k : Nat) :
    ({ m with running, waiting } : Machine).thread k = m.thread k := rfl

theorem thread_modifyCurrent_ne (h : k ≠ m.running) : (m.modifyCurrent f).thread k = m.thread k :=
  thread_modifyThread_ne h

/-- One change after another is one change. -/
theorem modifyThread_modifyThread (m : Machine) (id : Nat) (f g : Thread → Thread) :
    (m.modifyThread id f).modifyThread id g = m.modifyThread id (g ∘ f) := by
  simp only [modifyThread, mk.injEq, true_and, and_true]
  apply Array.ext_getElem?
  intro i
  simp only [Array.getElem?_modify]
  split <;> simp [Option.map_map]

theorem modifyThread_congr {g : Thread → Thread} (h : f (m.thread id) = g (m.thread id)) :
    m.modifyThread id f = m.modifyThread id g := by
  have : m.threads.modify id f = m.threads.modify id g := by
    apply Array.ext_getElem?
    intro i
    simp only [Array.getElem?_modify]
    split
    · rename_i same
      subst same
      cases found : m.threads[id]? with
      | none => rfl
      | some t => simpa [thread, found] using h
    · rfl
  simp [modifyThread, this]

theorem modifyThread_of_eq (h : f (m.thread id) = m.thread id) : m.modifyThread id f = m := by
  rw [modifyThread_congr (g := fun t => t) h]
  simp only [modifyThread]
  congr
  apply Array.ext_getElem?
  intro i
  simp [Array.getElem?_modify]

/-! ## Pushing -/

/-- Pushing several values at once. -/
theorem foldl_pushOn (vs : List Value) (m : Machine) (id : Nat) :
    vs.foldl (fun m v => m.pushOn id v) m =
      { m.modifyThread id (·.withCells m.store.cells.size vs.length) with
        store := m.store.withCells vs } := by
  induction vs generalizing m with
  | nil =>
    have same : m.modifyThread id (·.withCells m.store.cells.size 0) = m :=
      modifyThread_of_eq (by simp [Thread.withCells])
    simp only [List.foldl_nil, List.length_nil, same, Store.withCells]
    simp
  | cons v vs ih =>
    rw [List.foldl_cons, ih]
    simp only [pushOn, Store.newCell, modifyThread, Store.withCells, mk.injEq, Store.mk.injEq,
      true_and, and_true]
    refine ⟨by simp, ?_⟩
    apply Array.ext_getElem?
    intro i
    simp only [Array.getElem?_modify]
    split
    · cases m.threads[i]? with
      | none => rfl
      | some t =>
        simp only [Option.map_some, Thread.withCells, Array.size_push, List.length_cons]
        rw [Array.range'_succ, Array.push_eq_append, Array.append_assoc]
    · rfl

theorem pushResultsOn_eq (m : Machine) (id want : Nat) (vs : List Value) :
    m.pushResultsOn id want vs =
      { m.modifyThread id (·.withCells m.store.cells.size (slots want)) with
        store := m.store.withCells (delivered want vs) } := by
  rw [← length_delivered want vs, ← foldl_pushOn]
  unfold pushResultsOn delivered
  split <;> rfl

variable {want : Nat} {vs : List Value}

@[simp] theorem running_pushResultsOn : (m.pushResultsOn id want vs).running = m.running := by
  simp [pushResultsOn_eq]

@[simp] theorem waiting_pushResultsOn : (m.pushResultsOn id want vs).waiting = m.waiting := by
  simp [pushResultsOn_eq]

@[simp] theorem hosts_pushResultsOn : (m.pushResultsOn id want vs).hosts = m.hosts := by
  simp [pushResultsOn_eq]

@[simp] theorem store_pushResultsOn :
    (m.pushResultsOn id want vs).store = m.store.withCells (delivered want vs) := by
  simp [pushResultsOn_eq]

@[simp] theorem size_pushResultsOn : (m.pushResultsOn id want vs).threads.size = m.threads.size := by
  simp [pushResultsOn_eq]

theorem thread_pushResultsOn_self (h : id < m.threads.size) :
    (m.pushResultsOn id want vs).thread id =
      (m.thread id).withCells m.store.cells.size (slots want) := by
  rw [pushResultsOn_eq]
  exact thread_modifyThread_self h

theorem thread_pushResultsOn_ne (h : k ≠ id) :
    (m.pushResultsOn id want vs).thread k = m.thread k := by
  rw [pushResultsOn_eq]
  exact thread_modifyThread_ne h

theorem current_pushResults (h : m.running < m.threads.size) :
    (m.pushResults want vs).current = m.current.withCells m.store.cells.size (slots want) := by
  unfold pushResults current
  rw [running_pushResultsOn]
  exact thread_pushResultsOn_self h

/-- One value is a result for someone who wants one. -/
theorem push_eq_pushResults (m : Machine) (v : Value) : m.push v = m.pushResults 1 [v] := rfl

/-! ## Delivering -/

@[simp] theorem running_deliver : (m.deliver id vs).running = m.running := by simp [deliver]
@[simp] theorem waiting_deliver : (m.deliver id vs).waiting = m.waiting := by simp [deliver]
@[simp] theorem hosts_deliver : (m.deliver id vs).hosts = m.hosts := by simp [deliver]
@[simp] theorem size_deliver : (m.deliver id vs).threads.size = m.threads.size := by simp [deliver]

/-- Delivering does not depend on which threads run or wait. -/
theorem deliver_control (m : Machine) (running : Nat) (waiting : List Nat) (id : Nat)
    (vs : List Value) :
    { m with running, waiting }.deliver id vs = { m.deliver id vs with running, waiting } := by
  simp only [deliver, pushResultsOn_eq]
  rfl

theorem store_deliver : (m.deliver id vs).store = m.store.withCells (delivered (m.thread id).awaiting
    (List.replicate (m.thread id).awaitingProtections (Value.boolean true) ++ vs)) := by
  simp [deliver]

theorem thread_deliver_self (h : id < m.threads.size) :
    (m.deliver id vs).thread id = (m.thread id).receive m.store.cells.size := by
  unfold deliver
  rw [thread_pushResultsOn_self (by simpa using h), thread_modifyThread_self h]
  rfl

theorem thread_deliver_ne (h : k ≠ id) : (m.deliver id vs).thread k = m.thread k := by
  unfold deliver
  rw [thread_pushResultsOn_ne h, thread_modifyThread_ne h]

/-- No call is under way: the program's thread is the only one that runs or waits, and it has no
frames. -/
structure Idle (m : Machine) : Prop where
  running : m.running = 0
  waiting : m.waiting = []
  inside : 0 < m.threads.size
  frames : (m.thread 0).frames = []

end Machine

end ScriptEngine
