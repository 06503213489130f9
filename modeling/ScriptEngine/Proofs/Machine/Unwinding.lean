import ScriptEngine.Proofs.Machine.Coroutine

/-!
# Unwinding

A fault looks for the innermost handler: on the thread that runs, then on the one that resumed it, and so on
down to the program's thread. The threads that it passes die, and the first one with a handler goes back to
what the handler noted, together with the protected calls that end with it (`Lands`). Threads below it
and threads that neither run nor wait are not concerned, and if there is no handler at all the fault goes
to the host (`Attained.unwinds`).
-/

set_option linter.dupNamespace false

namespace ScriptEngine

/-- The thread has gone back to what its innermost handler noted. The handler is gone, and so are the
handlers of the protected calls that end with it; the cells `fresh` are new on the stack. -/
structure Thread.GoesBack (t t' : Thread) (handler : Handler) (outer : List Handler) (fresh : Array Nat) :
    Prop where
  frames : t'.frames = t.frames.rtake handler.frames
  stack : t'.stack = t.stack.take handler.stack ++ fresh
  captures : t'.captures = t.captures.take handler.captures
  handlers : t'.handlers = outer.drop handler.wraps
  awaiting : t'.awaiting = t.awaiting
  protections : t'.awaitingProtections = 0

/-- The number of results wanted by the outermost of the protected calls that end with a handler. -/
def Handler.outermostWant (handler : Handler) (outer : List Handler) : Nat :=
  ((handler :: outer.take handler.wraps).getLast (List.cons_ne_nil _ _)).want

theorem Handler.outermostWant_eq (handler : Handler) (outer : List Handler) :
    handler.outermostWant outer = ((outer.take handler.wraps).getLast?.getD handler).want := by
  have last := List.getLast?_cons (a := handler) (l := outer.take handler.wraps)
  rw [List.getLast?_eq_some_getLast (List.cons_ne_nil _ _)] at last
  exact congrArg Handler.want (Option.some.inj last)

/-- What a handler gives for a fault: a `true` for every protected call around it, and the failure. -/
def Handler.failure (handler : Handler) (fault : Fault) : List Value :=
  List.replicate handler.wraps (Value.boolean true) ++ [Value.boolean false, fault.toValue]

namespace Machine

variable {m : Machine} {id : Nat} {above below : List Nat}

/-- The threads `above` die and thread `id` catches the fault with `handler`, above the handlers `outer`.
Control is with it, the threads `below` wait for it, and no other thread has changed. -/
structure Lands (m : Machine) (above : List Nat) (id : Nat) (below : List Nat) (handler : Handler)
    (outer : List Handler) (fault : Fault) (m' : Machine) : Prop where
  running : m'.running = id
  waiting : m'.waiting = below
  size : m'.threads.size = m.threads.size
  dead : ∀ k ∈ above, m'.thread k = {}
  catcher : (m.thread id).GoesBack (m'.thread id) handler outer
    (Array.range' m.store.cells.size (slots (handler.outermostWant outer)))
  results : m'.store = m.store.withCells (delivered (handler.outermostWant outer) (handler.failure fault))
  others : ∀ k, k ∉ above → k ≠ id → m'.thread k = m.thread k
  globals : m'.globals = m.globals

/-- The machine with some threads dead. -/
def bury (m : Machine) (ids : List Nat) : Machine := ids.foldl (fun m id => m.modifyThread id fun _ => {}) m

theorem bury_eq (m : Machine) (ids : List Nat) : ∃ threads : Array Thread,
    m.bury ids = { m with threads } ∧ threads.size = m.threads.size := by
  induction ids generalizing m with
  | nil => exact ⟨m.threads, rfl, rfl⟩
  | cons id rest ih =>
    obtain ⟨threads, same, size⟩ := ih (m.modifyThread id fun _ => {})
    exact ⟨threads, same, size.trans size_modifyThread⟩

theorem thread_bury (m : Machine) (ids : List Nat) (k : Nat) :
    (m.bury ids).thread k = if k ∈ ids then {} else m.thread k := by
  induction ids generalizing m with
  | nil => simp [bury]
  | cons id rest ih =>
    have dies : (m.modifyThread id fun _ => {}).thread k = if k = id then {} else m.thread k := by
      by_cases inside : id < m.threads.size
      · exact thread_dies inside k
      · split
        · rename_i itself
          exact thread_of_outside (by rw [itself]; simpa using inside)
        · rename_i other
          exact thread_modifyThread_ne other
    have := ih (m.modifyThread id fun _ => {})
    rw [dies] at this
    simp only [bury, List.foldl_cons, List.mem_cons] at this ⊢
    rw [this]
    by_cases itself : k = id <;> by_cases mem : k ∈ rest <;> simp [itself, mem]

/-- Unwinding goes past the threads without a handler. -/
theorem unwindFrom_bury (fault : Fault) {k : Nat} {waiting : List Nat} (stack : k :: waiting = above ++ id :: below)
    (bare : ∀ k ∈ above, (m.thread k).handlers = []) :
    m.unwindFrom fault k waiting = (m.bury above).unwindFrom fault id below := by
  induction above generalizing m k waiting with
  | nil =>
    cases stack
    rfl
  | cons j rest ih =>
    obtain ⟨rfl, stack'⟩ := List.cons.inj stack
    obtain ⟨resumer, others, next⟩ : ∃ resumer others, waiting = resumer :: others :=
      List.exists_cons_of_ne_nil (by simp [stack'])
    have none' : (m.thread k).handlers = [] := bare k List.mem_cons_self
    have later : ∀ j ∈ rest, ((m.modifyThread k fun _ => {}).thread j).handlers = [] := by
      intro j mem
      have buried := thread_bury m [k] j
      simp only [bury, List.foldl_cons, List.foldl_nil] at buried
      rw [buried]
      split
      · rfl
      · exact bare j (List.mem_cons_of_mem _ mem)
    subst next
    rw [unwindFrom, none']
    exact ih stack' later

/-- There is a handler, and the threads above it have none. -/
theorem unwindFrom_lands (h : m.Rooted) (stack : m.running :: m.waiting = above ++ id :: below)
    (bare : ∀ k ∈ above, (m.thread k).handlers = []) {handler : Handler} {outer : List Handler}
    (handlers : (m.thread id).handlers = handler :: outer) (fault : Fault) :
    ∃ m', m.unwind fault = (true, m') ∧ m.Lands above id below handler outer fault m' := by
  have distinct := h.distinct
  rw [stack] at distinct
  have off : id ∉ above := fun mem => (List.nodup_append.1 distinct).2.2 id mem id List.mem_cons_self rfl
  have inside : id < m.threads.size := h.bound id (by rw [stack]; simp)
  obtain ⟨threads, buried, size⟩ := bury_eq m above
  have thread (k : Nat) : ({ m with threads } : Machine).thread k = if k ∈ above then {} else m.thread k :=
    buried ▸ thread_bury m above k
  have here : ({ m with threads } : Machine).thread id = m.thread id := by rw [thread, if_neg off]
  let k : Machine := { m with threads, running := id, waiting := below }
  have same : k.current = m.thread id := here
  have insideK : k.running < k.threads.size := by
    show id < threads.size
    rw [size]
    exact inside
  refine ⟨k.catchWith handler outer fault, ?_, ?_⟩
  · rw [unwind, unwindFrom_bury fault stack bare, buried]
    unfold unwindFrom
    rw [here, handlers]
  · have current := current_catchWith insideK handler outer fault
    rw [← Handler.outermostWant_eq, same] at current
    have running := running_catchWith (m := k) handler outer fault
    have target : (k.catchWith handler outer fault).thread id = (k.catchWith handler outer fault).current := by
      rw [Machine.current, running]
    refine ⟨running, ?_, ?_, fun j mem => ?_, ?_, ?_, fun j away other => ?_, ?_⟩
    · simp [catchWith, pushResults, k]
    · simp [catchWith, pushResults, k, size]
    · have other : j ≠ k.running := by
        rintro rfl
        exact off mem
      rw [thread_catchWith_ne other]
      exact (thread j).trans (if_pos mem)
    · rw [target, current]
      exact ⟨rfl, by simp [Thread.restore, Thread.withCells, k], by simp [Thread.restore, Thread.withCells], rfl, rfl, rfl⟩
    · rw [Handler.outermostWant_eq, Handler.failure, catchWith, pushResults, store_pushResultsOn]
      rfl
    · rw [thread_catchWith_ne (m := k) other]
      exact (thread j).trans (if_neg away)
    · simp [catchWith, pushResults, k, pushResultsOn_eq, modifyCurrent, modifyThread]

/-- No thread has a handler: all of them die, and the program's thread is left to run. -/
theorem unwind_bare (h : m.Rooted) (bare : ∀ k ∈ m.running :: m.waiting, (m.thread k).handlers = [])
    (fault : Fault) : ∃ threads : Array Thread,
      m.unwind fault = (false, { m with threads, running := 0, waiting := [] }) ∧ threads.size = m.threads.size ∧
      ∀ k, ({ m with threads } : Machine).thread k = if k ∈ m.running :: m.waiting then {} else m.thread k := by
  obtain ⟨above, stack⟩ : ∃ above, m.running :: m.waiting = above ++ [0] :=
    ⟨_, (List.dropLast_append_getLast? 0 h.bottom).symm⟩
  obtain ⟨threads, buried, size⟩ := bury_eq m (above ++ [0])
  refine ⟨threads, ?_, size, fun k => ?_⟩
  · have none' : ((m.bury above).thread 0).handlers = [] := by
      rw [thread_bury]
      split
      · rfl
      · exact bare 0 (by rw [stack]; simp)
    rw [unwind, unwindFrom_bury fault stack fun k mem => bare k (by rw [stack]; simp [mem])]
    unfold unwindFrom
    rw [none']
    simp only [bury, List.foldl_append, List.foldl_cons, List.foldl_nil] at buried
    simp only [bury, buried]
  · rw [← buried, thread_bury, stack]

end Machine

namespace Session

open Machine

variable {s : Session} {m : Machine}

/-- A machine of a session, or what one has become when its step has raised a fault. -/
def Shows (s : Session) (m : Machine) : Prop :=
  m = s.machine ∨ s.busy = true ∧ ∃ raised, Exec.step s.machine = .error raised m

theorem Attained.rooted (h : s.Attained) (shows : s.Shows m) : m.Rooted := by
  have orderly := h.orderly
  rcases shows with rfl | ⟨busy, raised, step⟩
  · exact orderly.rooted
  · have does := step_does orderly.rooted (orderly.grounded _) (orderly.alive busy _ List.mem_cons_self)
    rw [step] at does
    generalize s.machine.deed = deed at does
    cases does with
    | fails apart => exact orderly.rooted.apart apart

/-- In every state that comes about, and for every fault: if `id` is the first thread with a handler, counted
from the one that runs down to the program's, the fault is caught there, with the threads above it dead and
all others as they were; if there is none, all threads that run or wait are dead, control is with the
program's thread, and the rest of the machine is as it was. A run goes on with the first, and ends with
the very fault in the second case. -/
theorem Attained.unwinds (h : s.Attained) (shows : s.Shows m) (fault : Fault) :
    (∀ above id below handler outer, m.running :: m.waiting = above ++ id :: below →
      (∀ k ∈ above, (m.thread k).handlers = []) → (m.thread id).handlers = handler :: outer →
      ∃ m', m.unwind fault = (true, m') ∧ m.Lands above id below handler outer fault m') ∧
    ((∀ k ∈ m.running :: m.waiting, (m.thread k).handlers = []) → ∃ threads : Array Thread,
      m.unwind fault = (false, { m with threads, running := 0, waiting := [] }) ∧ threads.size = m.threads.size ∧
      ∀ k, ({ m with threads } : Machine).thread k = if k ∈ m.running :: m.waiting then {} else m.thread k) ∧
    ∀ raised steps, Exec.step s.machine = .error raised m → m.locate raised = fault →
      s.machine.run (steps + 1) = match m.unwind fault with
        | (true, m') => m'.run steps
        | (false, m') => some (.error fault, m') := by
  have rooted := h.rooted shows
  refine ⟨fun above id below handler outer stack bare handlers => unwindFrom_lands rooted stack bare handlers fault,
    fun bare => unwind_bare rooted bare fault, fun raised steps step located => ?_⟩
  cases unwound : m.unwind fault with
  | mk caught m' => cases caught <;> simp only [run, step, located, unwound]

/-- A program resumes a coroutine under protection. -/
theorem attained_protectedResume : ∃ s : Session, s.Attained ∧ s.machine.running = 1 ∧ s.machine.waiting = [0] ∧
    (s.machine.thread 1).handlers = [] ∧ (s.machine.thread 0).handlers = [⟨1, 1, 0, 1, 0⟩] := by
  let f : Closure := ⟨⟨1, "f", "test", 0, false, #[.make .ret 0 0], #[1], #[], []⟩, #[]⟩
  let program : Closure := ⟨⟨0, "main chunk", "test", 0, true, #[.make .loadK 0 0, .make .loadK 1 0,
    .make .loadK 2 0, .make .loadK 3 0, .make .call 1 1, .make .call 2 1, .make .ret 0 0], #[1, 1, 1, 1, 1, 1, 1],
    #[.core .pcall, .core .resume, .core .create, .closure 0], []⟩, #[]⟩
  have ran : (called? f program 6).any (fun s => decide (s.machine.running = 1 ∧ s.machine.waiting = [0] ∧
    (s.machine.thread 1).handlers = [] ∧ (s.machine.thread 0).handlers.map (fun h => (h.frames, h.stack, h.captures,
      h.want, h.wraps)) = [(1, 1, 0, 1, 0)])) = true := by decide +kernel
  obtain ⟨s, attained, -, tested⟩ := attained_of_called? ran
  obtain ⟨running, waiting, bare, shape⟩ := of_decide_eq_true tested
  obtain ⟨⟨⟩, rest, handlers, head, empty⟩ := List.map_eq_cons_iff.1 shape
  obtain rfl := List.map_eq_nil_iff.1 empty
  cases head
  exact ⟨s, attained, running, waiting, bare, handlers⟩

/-- The coroutine has no handler and dies; the program catches the fault. -/
theorem Attained.unwinds_protectedResume : ∃ (s : Session) (m : Machine), s.Attained ∧
    s.machine.unwind .stackOverflow = (true, m) ∧ m.running = 0 ∧ m.waiting = [] ∧ m.thread 1 = {} ∧
    m.store = s.machine.store.withCells [.boolean false] := by
  obtain ⟨s, h, running, waiting, bare, handler⟩ := attained_protectedResume
  obtain ⟨m, unwound, lands⟩ := (h.unwinds (.inl rfl) .stackOverflow).1 [1] 0 [] _ _
    (by rw [running, waiting]; rfl) (by simpa using bare) handler
  exact ⟨s, m, h, unwound, lands.running, lands.waiting, lands.dead 1 List.mem_cons_self, lands.results⟩

end Session

end ScriptEngine
