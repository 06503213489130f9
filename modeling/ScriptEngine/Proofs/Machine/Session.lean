import ScriptEngine.Proofs.Machine.Conduct
import ScriptEngine.Proofs.Machine.Protection

/-!
# Sessions

A host and its machine take turns: the host sets the machine up as it likes, with any functions and any
units of code, and calls a closure; the machine then takes steps until the call is over. Every state
that comes about is `Orderly`: the threads that run or wait are as they should be, and a thread that has
handed control over still waits for what it asked for. A coroutine that has ended stays so.
-/

set_option linter.dupNamespace false

namespace ScriptEngine

/-- A machine in the hands of a host. -/
structure Session where
  machine : Machine
  /-- A call from the host is under way. -/
  busy : Bool
  /-- What each thread asked for when it last handed control over: the number of results, and the
  protected calls around. -/
  asked : Nat → Option (Nat × Nat)

namespace Session

/-- Nothing has been called yet. -/
def start (config : Config) : Session := ⟨Library.machine config, false, fun _ => none⟩

/-- What has been asked for after the next step. -/
def noted (s : Session) : Nat → Option (Nat × Nat) :=
  match s.machine.deed with
  | .hands _ _ _ want layers => Function.update s.asked s.machine.running (some (want, layers))
  | _ => s.asked

/-- What the host or the machine does next. -/
inductive Moves (s : Session) : Session → Prop where
  /-- The host does anything but touch the threads. -/
  | prepare {m : Machine} (threads : m.threads = s.machine.threads)
      (running : m.running = s.machine.running) (waiting : m.waiting = s.machine.waiting) :
      Moves s { s with machine := m }
  /-- The host calls a closure, which it can unless a call is under way. -/
  | call {m : Machine} {closure : Closure} {args : List Value} (idle : s.machine.waiting = [])
      (dead : (s.machine.thread 0).frames = [])
      (entered : Exec.enter closure args 0 0 (s.machine.modifyThread 0 fun _ => {}) = .ok () m) :
      Moves s { s with machine := m, busy := true }
  /-- The closure does not fit within the limits. -/
  | refuse {m : Machine} {closure : Closure} {args : List Value} {fault : Fault}
      (idle : s.machine.waiting = []) (dead : (s.machine.thread 0).frames = [])
      (entered : Exec.enter closure args 0 0 (s.machine.modifyThread 0 fun _ => {}) = .error fault m) :
      Moves s { s with machine := m, busy := false }
  | step {m : Machine} (busy : s.busy = true) (step : Exec.step s.machine = .ok none m) :
      Moves s ⟨m, true, s.noted⟩
  | finish {m : Machine} {results : List Value} (busy : s.busy = true)
      (step : Exec.step s.machine = .ok (some results) m) : Moves s ⟨m, false, s.noted⟩
  | fault {m m' : Machine} {fault : Fault} {caught : Bool} (busy : s.busy = true)
      (step : Exec.step s.machine = .error fault m)
      (unwound : m.unwind (m.locate fault) = (caught, m')) : Moves s ⟨m', caught, s.noted⟩

/-- The sessions that come about. -/
def Attained (s : Session) : Prop := ∃ config, Relation.ReflTransGen Moves (start config) s

/-- The thread waits for what it asked for; one that has not asked for anything has not run yet. -/
def Awaits (asked : Option (Nat × Nat)) (t : Thread) : Prop :=
  match asked with
  | some (want, layers) => t.awaiting = want ∧ t.awaitingProtections = layers
  | none => ∃ c, t = .ofClosure c

/-- Every thread is as it should be. -/
structure Orderly (s : Session) : Prop where
  rooted : s.machine.Rooted
  grounded : ∀ id, (s.machine.thread id).Grounded
  alive : s.busy = true → ∀ id ∈ s.machine.running :: s.machine.waiting,
    (s.machine.thread id).frames ≠ []
  idle : s.busy = false → s.machine.waiting = [] ∧ (s.machine.thread 0).frames = []
  clear : s.busy = true → s.machine.current.awaitingProtections = 0
  awaits : ∀ id, id < s.machine.threads.size → id ≠ s.machine.running →
    (s.machine.thread id).frames ≠ [] → Awaits (s.asked id) (s.machine.thread id)
  unasked : ∀ id, s.machine.threads.size ≤ id → s.asked id = none

end Session

/-! ## Unwinding -/

namespace Machine

variable {m m' : Machine}

theorem thread_of_outside {id : Nat} (outside : m.threads.size ≤ id) : m.thread id = {} := by
  simp [thread, outside]

/-- Unwinding leaves every thread as it is, dead, or running. -/
structure Unwound (m m' : Machine) (caught : Bool) : Prop where
  size : m'.threads.size = m.threads.size
  rooted : m'.Rooted
  grounded : ∀ id, (m'.thread id).Grounded
  fewer : ∀ id ∈ m'.running :: m'.waiting, id ∈ m.running :: m.waiting
  each : ∀ id, m'.thread id = m.thread id ∨ (m'.thread id).frames = [] ∨ id = m'.running
  left : m'.running ≠ m.running → (m'.thread m.running).frames = []
  alive : caught = true → ∀ id ∈ m'.running :: m'.waiting, (m'.thread id).frames ≠ []
  clear : caught = true → m'.current.awaitingProtections = 0
  idle : caught = false → m'.waiting = [] ∧ (m'.thread 0).frames = []

theorem grounded_empty : Thread.Grounded {} := ⟨by simp, by simp⟩

/-- A handler leaves a frame, as it was made by one. -/
theorem restore_alive {t : Thread} {h : Handler} (alive : t.frames ≠ []) (some' : 0 < h.frames) :
    (t.restore h).frames ≠ [] := by
  have length := List.length_pos_iff.2 alive
  apply List.ne_nil_of_length_pos
  simp only [Thread.restore, List.length_drop]
  omega

theorem getLast?_drop {α : Type} {xs : List α} {n : Nat} (some' : xs.drop n ≠ []) :
    (xs.drop n).getLast? = xs.getLast? := by
  rw [List.getLast?_drop, if_neg]
  simpa using some'

/-- The innermost handler of the running thread catches a fault. -/
theorem catchWith_unwound (h : m.Rooted) (grounded : ∀ id, (m.thread id).Grounded)
    (alive : ∀ id ∈ m.running :: m.waiting, (m.thread id).frames ≠ []) {handler : Handler}
    {outer : List Handler} (handlers : m.current.handlers = handler :: outer) (fault : Fault) :
    m.Unwound (m.catchWith handler outer fault) true := by
  have inside := h.running_lt
  have current := current_catchWith inside handler outer fault
  have waiting : (m.catchWith handler outer fault).waiting = m.waiting := by
    simp [catchWith, pushResults]
  have size : (m.catchWith handler outer fault).threads.size = m.threads.size := by
    simp [catchWith, pushResults]
  have running := running_catchWith (m := m) handler outer fault
  have noted : ∀ g ∈ handler :: outer, 0 < g.frames := handlers ▸ (grounded m.running).noted
  have alive' : (m.current.restore handler).frames ≠ [] :=
    restore_alive (alive _ List.mem_cons_self) (noted handler List.mem_cons_self)
  have here : (m.catchWith handler outer fault).thread m.running =
      (m.catchWith handler outer fault).current := by rw [Machine.current, running]
  refine ⟨size, ⟨?_, ?_, ?_⟩, fun id => ?_, ?_, fun id => ?_, fun away => absurd running away, fun _ => ?_,
    fun _ => ?_, by simp⟩
  · rw [running, waiting, size]
    exact h.bound
  · rw [running, waiting]
    exact h.distinct
  · rw [running, waiting]
    exact h.bottom
  · by_cases itself : id = m.running
    · rw [itself, here, current]
      refine ⟨fun g mem => noted g (List.mem_cons_of_mem _ (List.mem_of_mem_drop mem)), fun g last => ?_⟩
      have last : (m.current.restore handler).frames.getLast? = some g := last
      rw [Thread.restore, getLast?_drop alive'] at last
      exact (grounded m.running).plain g last
    · rw [thread_catchWith_ne itself]
      exact grounded id
  · rw [running, waiting]
    exact fun id mem => mem
  · by_cases itself : id = m.running
    · exact Or.inr (Or.inr (by rw [running, itself]))
    · exact Or.inl (thread_catchWith_ne itself handler outer fault)
  · rw [running, waiting]
    intro id mem
    by_cases itself : id = m.running
    · rw [itself, here, current]
      exact alive'
    · rw [thread_catchWith_ne itself]
      exact alive id mem
  · rw [current]
    rfl

/-- A thread without a handler dies. -/
theorem thread_dies {id : Nat} (inside : id < m.threads.size) (k : Nat) :
    (m.modifyThread id fun _ => {}).thread k = if k = id then {} else m.thread k := by
  split
  · rename_i itself
    rw [itself, thread_modifyThread_self inside]
  · rename_i other
    exact thread_modifyThread_ne other

theorem grounded_dies {id : Nat} (inside : id < m.threads.size)
    (grounded : ∀ id, (m.thread id).Grounded) (k : Nat) :
    ((m.modifyThread id fun _ => {}).thread k).Grounded := by
  rw [thread_dies inside]
  split
  · exact grounded_empty
  · exact grounded k

/-- Unwinding goes from one thread to the next until there is a handler. -/
theorem unwindFrom_unwound (fault : Fault) {id : Nat} {waiting : List Nat}
    (h : ({ m with running := id, waiting } : Machine).Rooted)
    (grounded : ∀ id, (m.thread id).Grounded) (alive : ∀ k ∈ id :: waiting, (m.thread k).frames ≠ []) :
    Unwound { m with running := id, waiting } (m.unwindFrom fault id waiting).2
      (m.unwindFrom fault id waiting).1 := by
  induction waiting generalizing m id with
  | nil =>
    unfold unwindFrom
    cases handlers : (m.thread id).handlers with
    | cons handler outer => exact catchWith_unwound h grounded alive handlers fault
    | nil =>
      have program : id = 0 := by simpa using h.bottom
      subst program
      refine ⟨size_modifyThread, ⟨?_, h.distinct, h.bottom⟩, grounded_dies h.running_lt grounded,
        fun _ mem => mem, fun k => ?_, fun away => absurd rfl away, by simp, by simp, fun _ => ⟨rfl, ?_⟩⟩
      · intro k mem
        exact (h.bound k mem).trans_eq size_modifyThread.symm
      · by_cases itself : k = 0
        · exact Or.inr (Or.inr itself)
        · exact Or.inl (thread_modifyThread_ne itself)
      · exact congrArg Thread.frames (thread_modifyThread_self h.running_lt)
  | cons resumer rest ih =>
    unfold unwindFrom
    cases handlers : (m.thread id).handlers with
    | cons handler outer => exact catchWith_unwound h grounded alive handlers fault
    | nil =>
      have inside : id < m.threads.size := h.running_lt
      have away : ∀ k ∈ resumer :: rest, k ≠ id := by
        rintro k mem rfl
        exact (List.nodup_cons.1 h.distinct).1 mem
      have rooted : Rooted { m.modifyThread id (fun _ => {}) with running := resumer, waiting := rest } := by
        refine ⟨fun k mem => ?_, (List.nodup_cons.1 h.distinct).2, h.bottom⟩
        exact (h.bound k (List.mem_cons_of_mem _ mem)).trans_eq size_modifyThread.symm
      have alive' : ∀ k ∈ resumer :: rest, ((m.modifyThread id fun _ => {}).thread k).frames ≠ [] := by
        intro k mem
        rw [thread_dies inside, if_neg (away k mem)]
        exact alive k (List.mem_cons_of_mem _ mem)
      have below := ih rooted (grounded_dies inside grounded) alive'
      have dead : ∀ k, (m.modifyThread id fun _ => {}).thread k = if k = id then {} else m.thread k :=
        thread_dies inside
      refine ⟨below.size.trans size_modifyThread, below.rooted, below.grounded,
        fun k mem => List.mem_cons_of_mem _ (below.fewer k mem), fun k => ?_, fun elsewhere => ?_,
        below.alive, below.clear, below.idle⟩
      · rcases below.each k with same | others
        · have same := same.trans (dead k)
          by_cases itself : k = id
          · rw [if_pos itself] at same
            exact Or.inr (Or.inl (by rw [same]))
          · rw [if_neg itself] at same
            exact Or.inl same
        · exact Or.inr others
      · rcases below.each id with same | ended | itself
        · rw [same.trans (dead id), if_pos rfl]
        · exact ended
        · exact absurd itself.symm elsewhere

/-- A fault in a machine whose threads are all in order. -/
theorem unwind_unwound (h : m.Rooted) (grounded : ∀ id, (m.thread id).Grounded)
    (alive : ∀ id ∈ m.running :: m.waiting, (m.thread id).frames ≠ []) {fault : Fault} {caught : Bool}
    (unwound : m.unwind fault = (caught, m')) : m.Unwound m' caught := by
  have done : m.Unwound (m.unwind fault).2 (m.unwind fault).1 := unwindFrom_unwound fault h grounded alive
  rw [unwound] at done
  exact done

end Machine

/-! ## Moves keep the order -/

namespace Thread

theorem grounded_ofClosure (c : Closure) : (Thread.ofClosure c).Grounded := by
  refine ⟨by simp [ofClosure], fun f last => ?_⟩
  cases last
  exact ⟨rfl, rfl⟩

theorem Grounded.receive {t : Thread} (h : t.Grounded) (cell : Nat) : (t.receive cell).Grounded :=
  ⟨fun g mem => h.noted g (List.mem_of_mem_drop mem), h.plain⟩

end Thread

namespace Machine

variable {m m' : Machine}

theorem Apart.grounded (apart : m.Apart m') (alive : m.current.frames ≠ [])
    (grounded : ∀ id, (m.thread id).Grounded) (id : Nat) : (m'.thread id).Grounded := by
  by_cases itself : id = m.running
  · rw [itself, ← apart.running]
    exact apart.current.grounded alive (grounded m.running)
  · by_cases old : id < m.threads.size
    · rw [apart.others id old itself]
      exact grounded id
    · by_cases new : id < m'.threads.size
      · obtain ⟨c, made⟩ := apart.made id (by omega) new
        rw [made]
        exact Thread.grounded_ofClosure c
      · rw [thread_of_outside (by omega)]
        exact grounded_empty

theorem Delivers.grounded {id : Nat} {rest : List Nat} {vs : List Value} (delivers : m.Delivers m' id rest vs)
    (caller : (m'.thread m.running).Grounded) (grounded : ∀ id, (m.thread id).Grounded) (k : Nat) :
    (m'.thread k).Grounded := by
  by_cases itself : k = m.running
  · rw [itself]
    exact caller
  · by_cases target : k = id
    · rw [target, delivers.target]
      exact (grounded id).receive _
    · rw [delivers.others k itself target]
      exact grounded k

theorem Delivers.rooted {id : Nat} {rest : List Nat} {vs : List Value} (delivers : m.Delivers m' id rest vs)
    (h : m.Rooted) (alive : ∀ k ∈ m.waiting, (m.thread k).frames ≠ []) : m'.Rooted := by
  obtain ⟨-, bound, distinct, bottom, -⟩ := delivers.switch.sound h alive
  obtain ⟨size, running, waiting, -⟩ := delivers
  refine ⟨?_, ?_, ?_⟩
  · rw [running, waiting, size]
    exact bound
  · rw [running, waiting]
    exact distinct
  · rw [running, waiting]
    exact bottom

end Machine

namespace Session

variable {s s' : Session} {m : Machine}

open Machine

theorem start_orderly (config : Config) : (start config).Orderly := by
  have threads : (Library.machine config).threads = #[{}] := rfl
  have running : (Library.machine config).running = 0 := rfl
  have waiting : (Library.machine config).waiting = [] := rfl
  have empty (id : Nat) : (Library.machine config).thread id = {} := by
    rw [thread, threads]
    cases id <;> rfl
  refine ⟨⟨?_, ?_, ?_⟩, ?_, by simp [start], ?_, by simp [start], ?_, fun _ _ => rfl⟩ <;>
    simp only [start, threads, running, waiting, empty]
  · simp
  · simp
  · simp
  · exact fun _ => grounded_empty
  · simp
  · exact fun _ _ _ alive => absurd rfl alive

theorem Orderly.apart (h : s.Orderly) (busy : s.busy = true) (apart : s.machine.Apart m) :
    Orderly ⟨m, true, s.asked⟩ where
  rooted := h.rooted.apart apart
  grounded := apart.grounded (h.alive busy _ List.mem_cons_self) h.grounded
  alive _ id mem := by
    simp only [apart.running, apart.waiting] at mem
    by_cases itself : id = s.machine.running
    · rw [itself, ← apart.running]
      exact apart.current.alive (h.alive busy _ List.mem_cons_self)
    · rw [apart.others id (h.rooted.bound id mem) itself]
      exact h.alive busy id mem
  idle := nofun
  clear _ := apart.current.protections.trans (h.clear busy)
  awaits id inside other alive := by
    simp only [apart.running] at other
    by_cases old : id < s.machine.threads.size
    · have same := apart.others id old other
      simp only [same] at alive ⊢
      exact h.awaits id old other alive
    · simp only [h.unasked id (by omega)]
      exact apart.made id (by omega) inside
  unasked id outside := h.unasked id (Nat.le_trans apart.size outside)

/-- Control has gone to another thread, and the one that ran waits for what it asked for or has ended. -/
theorem Orderly.delivers {id : Nat} {rest : List Nat} {vs : List Value} (h : s.Orderly)
    (busy : s.busy = true) (delivers : s.machine.Delivers m id rest vs)
    (grounded : (m.thread s.machine.running).Grounded)
    (alive : s.machine.running ∈ rest → (m.thread s.machine.running).frames ≠ [])
    {asked : Nat → Option (Nat × Nat)} (same : ∀ k, k ≠ s.machine.running → asked k = s.asked k)
    (awaits : (m.thread s.machine.running).frames ≠ [] →
      Awaits (asked s.machine.running) (m.thread s.machine.running)) : Orderly ⟨m, true, asked⟩ := by
  have waiting : ∀ k ∈ s.machine.waiting, (s.machine.thread k).frames ≠ [] :=
    fun k mem => h.alive busy k (List.mem_cons_of_mem _ mem)
  obtain ⟨targetAlive, bound, distinct, -, which⟩ := delivers.switch.sound h.rooted waiting
  have other : id ≠ s.machine.running := delivers.switch.ne h.rooted.distinct
  have target : m.thread id = (s.machine.thread id).receive s.machine.store.cells.size := delivers.target
  refine ⟨delivers.rooted h.rooted waiting, delivers.grounded grounded h.grounded, fun _ k mem => ?_, nofun,
    fun _ => ?_, fun k inside away aliveK => ?_, fun k outside => ?_⟩
  · simp only [delivers.running, delivers.waiting] at mem
    by_cases itself : k = s.machine.running
    · subst itself
      exact alive ((List.mem_cons.1 mem).resolve_left (Ne.symm other))
    · by_cases isTarget : k = id
      · rw [isTarget, target]
        exact targetAlive
      · rw [delivers.others k itself isTarget]
        exact waiting k ((which k ((List.mem_cons.1 mem).resolve_left isTarget)).resolve_left itself)
  · show (m.thread m.running).awaitingProtections = 0
    rw [delivers.running, target]
    rfl
  · simp only [delivers.running, delivers.size] at inside away
    by_cases itself : k = s.machine.running
    · subst itself
      exact awaits aliveK
    · have unchanged := delivers.others k itself away
      simp only [unchanged] at aliveK ⊢
      rw [same k itself]
      exact h.awaits k inside itself aliveK
  · simp only [delivers.size] at outside
    have away : k ≠ s.machine.running := fun itself => absurd h.rooted.running_lt (by omega)
    exact (same k away).trans (h.unasked k outside)

/-- The program's outermost call has returned. -/
theorem Orderly.completes (h : s.Orderly) (idle : s.machine.waiting = [])
    (running : m.running = s.machine.running) (waiting : m.waiting = s.machine.waiting)
    (size : m.threads.size = s.machine.threads.size)
    (others : ∀ k, k ≠ s.machine.running → m.thread k = s.machine.thread k)
    (caller : s.machine.current.Ends m.current) : Orderly ⟨m, false, s.asked⟩ := by
  have program : s.machine.running = 0 := by simpa [idle] using h.rooted.bottom
  have here : m.thread s.machine.running = m.current := by rw [Machine.current, running]
  refine ⟨⟨?_, ?_, ?_⟩, fun id => ?_, by simp, fun _ => ⟨waiting.trans idle, ?_⟩, by simp,
    fun id inside other alive => ?_, fun id outside => h.unasked id (size ▸ outside)⟩
  · simp only [running, waiting, size]
    exact h.rooted.bound
  · simp only [running, waiting]
    exact h.rooted.distinct
  · simp only [running, waiting]
    exact h.rooted.bottom
  · by_cases itself : id = s.machine.running
    · simp only [itself, here]
      exact caller.grounded (h.grounded _)
    · simp only [others id itself]
      exact h.grounded id
  · simp only [← program, here]
    exact caller.dead
  · simp only [running, size] at inside other
    have same := others id other
    simp only [same] at alive ⊢
    exact h.awaits id inside other alive

/-- A fault has been unwound. -/
theorem Orderly.unwound {m' : Machine} {caught : Bool} (h : Orderly ⟨m, true, s.asked⟩)
    (unwound : m.Unwound m' caught) : Orderly ⟨m', caught, s.asked⟩ where
  rooted := unwound.rooted
  grounded := unwound.grounded
  alive := unwound.alive
  idle := unwound.idle
  clear := unwound.clear
  awaits id inside other alive := by
    simp only [unwound.size] at inside
    have same : m'.thread id = m.thread id :=
      (unwound.each id).resolve_right (not_or.2 ⟨alive, other⟩)
    simp only [same] at alive ⊢
    refine h.awaits id inside (fun itself => ?_) alive
    -- the thread that raised the fault has caught it or is dead
    subst itself
    exact alive (same ▸ unwound.left (Ne.symm other))
  unasked id outside := h.unasked id (unwound.size ▸ outside)

/-- The thread of the program when a closure has been called on it. -/
theorem enter_current {k : Machine} (inside : k.running < k.threads.size) {closure : Closure}
    {args : List Value} (entered : Exec.enter closure args 0 0 k = .ok () m) :
    k.Apart m ∧ m.current = k.current.entered closure k.store.cells.size 0 0 [] := by
  have apart : k.Stays (Exec.enter closure args 0 0 k) := Exec.local_enter closure args 0 0 k inside
  refine ⟨by rwa [entered] at apart, ?_⟩
  simp only [Exec.enter, Exec.bind_apply, Exec.get_apply] at entered
  split at entered
  · cases entered
  · cases entered
    show (Machine.pushResults _ 1 [.multi args]).current = _
    rw [current_pushResults (by simpa using inside), current_modifyCurrent inside]
    simp [Thread.withCells, Thread.entered, slots]

/-- The program's thread is cleared before the host calls a closure on it. -/
theorem Orderly.reset (h : s.Orderly) (idle : s.machine.waiting = []) :
    Orderly ⟨s.machine.modifyThread 0 fun _ => {}, false, s.asked⟩ ∧
      (s.machine.modifyThread 0 fun _ => {}).current = {} := by
  have program : s.machine.running = 0 := by simpa [idle] using h.rooted.bottom
  have inside : 0 < s.machine.threads.size := program ▸ h.rooted.running_lt
  have cleared : (s.machine.modifyThread 0 fun _ => {}).thread 0 = {} := thread_modifyThread_self inside
  refine ⟨⟨⟨?_, h.rooted.distinct, h.rooted.bottom⟩, grounded_dies inside h.grounded, by simp,
    fun _ => ⟨idle, congrArg Thread.frames cleared⟩, by simp, fun id within other alive => ?_,
    fun id outside => h.unasked id (size_modifyThread ▸ outside)⟩, ?_⟩
  · exact fun id mem => (h.rooted.bound id mem).trans_eq size_modifyThread.symm
  · have same : (s.machine.modifyThread 0 fun _ => {}).thread id = s.machine.thread id :=
      thread_modifyThread_ne (program ▸ other)
    simp only [same, size_modifyThread] at within alive ⊢
    exact h.awaits id within other alive
  · rw [Machine.current, running_modifyThread, program, cleared]

/-- The host calls a closure on the program's thread. -/
theorem Orderly.call (h : s.Orderly) (idle : s.machine.waiting = []) {closure : Closure} {args : List Value}
    (entered : Exec.enter closure args 0 0 (s.machine.modifyThread 0 fun _ => {}) = .ok () m) :
    Orderly ⟨m, true, s.asked⟩ := by
  obtain ⟨h, current⟩ := h.reset idle
  generalize (s.machine.modifyThread 0 fun _ => {}) = k at h current entered
  have below : k.waiting = [] := (h.idle rfl).1
  obtain ⟨apart, now⟩ := enter_current h.rooted.running_lt entered
  rw [current] at now
  have others (id : Nat) (other : id ≠ k.running) : id < k.threads.size ∧ m.thread id = k.thread id ∨
      k.threads.size ≤ id ∧ (m.threads.size ≤ id ∨ ∃ c, m.thread id = .ofClosure c) := by
    by_cases old : id < k.threads.size
    · exact Or.inl ⟨old, apart.others id old other⟩
    · refine Or.inr ⟨Nat.le_of_not_lt old, ?_⟩
      by_cases new : id < m.threads.size
      · exact Or.inr (apart.made id (Nat.le_of_not_lt old) new)
      · exact Or.inl (Nat.le_of_not_lt new)
  refine ⟨h.rooted.apart apart, fun id => ?_, fun _ id mem => ?_, nofun, fun _ => ?_,
    fun id inside other alive => ?_, fun id outside => h.unasked id (Nat.le_trans apart.size outside)⟩
  · by_cases itself : id = k.running
    · have here : m.thread id = m.current := by rw [Machine.current, apart.running, itself]
      show (m.thread id).Grounded
      rw [here, now]
      refine ⟨by simp [Thread.entered], fun f last => ?_⟩
      cases last
      exact ⟨rfl, rfl⟩
    · show (m.thread id).Grounded
      rcases others id itself with ⟨-, same⟩ | ⟨-, outside | ⟨c, made⟩⟩
      · rw [same]
        exact h.grounded id
      · rw [thread_of_outside outside]
        exact grounded_empty
      · rw [made]
        exact Thread.grounded_ofClosure c
  · have only : id = m.running := by
      simpa [apart.waiting, below] using mem
    rw [only]
    show m.current.frames ≠ []
    rw [now]
    simp [Thread.entered]
  · show m.current.awaitingProtections = 0
    rw [now]
    rfl
  · simp only [apart.running] at other
    rcases others id other with ⟨old, same⟩ | ⟨outside, beyond | made⟩
    · simp only [same] at alive ⊢
      exact h.awaits id old other alive
    · exact absurd inside (Nat.not_lt.2 beyond)
    · have none' : s.asked id = none := h.unasked id outside
      simp only [none']
      exact made

/-- Whatever the host or the machine does, all threads are as they should be. -/
theorem Moves.orderly (move : Moves s s') (h : s.Orderly) : s'.Orderly := by
  have does (busy : s.busy = true) := step_does h.rooted (h.grounded _) (h.alive busy _ List.mem_cons_self)
  cases move with
  | @prepare m threads running waiting =>
    have same (id : Nat) : m.thread id = s.machine.thread id := by rw [thread, thread, threads]
    refine ⟨⟨?_, ?_, ?_⟩, ?_, ?_, ?_, ?_, ?_, ?_⟩
    all_goals simp only [Machine.current, running, waiting, threads, same]
    exacts [h.rooted.bound, h.rooted.distinct, h.rooted.bottom, h.grounded, h.alive, h.idle, h.clear,
      h.awaits, h.unasked]
  | call idle dead entered => exact h.call idle entered
  | @refuse m _ _ _ idle dead entered =>
    have same : m = s.machine.modifyThread 0 fun _ => {} := by
      simp only [Exec.enter, Exec.bind_apply, Exec.get_apply] at entered
      split at entered
      · cases entered
        rfl
      · cases entered
    rw [same]
    exact (h.reset idle).1
  | step busy step =>
    have does := does busy
    rw [step] at does
    unfold noted
    generalize s.machine.deed = deed at does ⊢
    cases does with
    | proceeds apart => exact h.apart busy apart
    | hands delivers caller =>
      have alive := h.alive busy _ List.mem_cons_self
      refine h.delivers busy delivers (caller.grounded alive (h.grounded _)) (fun _ => caller.alive alive)
        (fun k away => Function.update_of_ne away _ _) fun _ => ?_
      simp only [Function.update_self]
      exact ⟨caller.awaiting, by rw [caller.protections, h.clear busy, Nat.zero_add]⟩
    | returns waiting delivers caller =>
      refine h.delivers busy delivers (caller.grounded (h.grounded _)) (fun mem => ?_) (fun _ _ => rfl)
        fun alive => absurd caller.dead alive
      -- a thread that ends does not wait
      have distinct := h.rooted.distinct
      rw [waiting] at distinct
      simp [mem] at distinct
  | finish busy step =>
    have does := does busy
    rw [step] at does
    unfold noted
    generalize s.machine.deed = deed at does ⊢
    cases does with
    | completes idle running waiting size others caller =>
      exact h.completes idle running waiting size others caller
  | fault busy step unwound =>
    have does := does busy
    rw [step] at does
    unfold noted
    generalize s.machine.deed = deed at does ⊢
    cases does with
    | fails apart =>
      have failed := h.apart busy apart
      exact failed.unwound (unwind_unwound failed.rooted failed.grounded (failed.alive rfl) unwound)

end Session

end ScriptEngine
