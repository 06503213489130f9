import ScriptEngine.Engine
import ScriptEngine.Proofs.Machine.Coroutine

/-!
# Engines can be used again

A host asks an engine for one thing after another. However a call ends, the machine is `Idle` then: the
program's thread is the only one on the stack of threads and has no frames. So the next call is not
turned away and starts on an empty thread (`Renewed`), and what a call that failed leaves behind is said by
`Abandons`: the threads that ran or waited are dead, and no other thread has changed.
-/

set_option linter.dupNamespace false

namespace ScriptEngine

namespace Machine

variable {m m' k : Machine} {fault : Fault}

/-! ## Runs -/

/-- A round of a run that goes on: a step, or a fault that is caught. -/
inductive Continues (m : Machine) : Machine → Prop where
  | step {m' : Machine} (step : Exec.step m = .ok none m') : Continues m m'
  | catches {k m' : Machine} {fault : Fault} (step : Exec.step m = .error fault k)
      (caught : k.unwind (k.locate fault) = (true, m')) : Continues m m'

/-- The last step of a run: the program returns, or nobody catches a fault. -/
inductive Concludes (m : Machine) : Except Fault (List Value) → Machine → Prop where
  | returns {m' : Machine} {results : List Value} (step : Exec.step m = .ok (some results) m') :
      Concludes m (.ok results) m'
  | fails {k m' : Machine} {fault : Fault} (step : Exec.step m = .error fault k)
      (uncaught : k.unwind (k.locate fault) = (false, m')) : Concludes m (.error (k.locate fault)) m'

/-- A run that ends is a sequence of rounds and a last step. -/
theorem exists_of_run {steps : Nat} {result : Except Fault (List Value)}
    (ran : run steps m = some (result, m')) :
    ∃ k, Relation.ReflTransGen Continues m k ∧ k.Concludes result m' := by
  induction steps generalizing m with
  | zero => cases ran
  | succ steps ih =>
    simp only [run] at ran
    split at ran
    · rename_i next step
      obtain ⟨k, turns, ends⟩ := ih ran
      exact ⟨k, .head (.step step) turns, ends⟩
    · rename_i results next step
      cases ran
      exact ⟨m, .refl, .returns step⟩
    · rename_i fault next step
      split at ran
      · rename_i next' caught
        obtain ⟨k, turns, ends⟩ := ih ran
        exact ⟨k, .head (.catches step caught) turns, ends⟩
      · rename_i next' uncaught
        cases ran
        exact ⟨m, .refl, .fails step uncaught⟩

/-! ## Faults that nobody catches -/

/-- Unwinding that finds no handler clears the threads it passes, and leaves all others alone. -/
theorem thread_unwindFrom {id : Nat} {waiting : List Nat} (bound : ∀ k ∈ id :: waiting, k < m.threads.size)
    (uncaught : m.unwindFrom fault id waiting = (false, m')) (k : Nat) :
    m'.thread k = if k ∈ id :: waiting then {} else m.thread k := by
  induction waiting generalizing m id with
  | nil =>
    unfold unwindFrom at uncaught
    split at uncaught
    · cases uncaught
    · cases uncaught
      show (m.modifyThread id fun _ => {}).thread k = _
      simpa only [List.mem_singleton] using thread_dies (bound id (by simp)) k
  | cons resumer rest ih =>
    unfold unwindFrom at uncaught
    split at uncaught
    · cases uncaught
    · have dies := thread_dies (m := m) (bound id (by simp)) k
      have below := ih (fun k mem => size_modifyThread.symm ▸ bound k (List.mem_cons_of_mem _ mem)) uncaught
      rw [below, dies]
      by_cases itself : k = id
      · simp [itself]
      · simp [itself]

/-- What is left of `m` after its next step raised a fault that nobody catches. -/
structure Abandons (m m' : Machine) : Prop where
  died : ∀ id ∈ m.running :: m.waiting, m'.thread id = {} ∧ (id ≠ 0 → m'.status id = "dead")
  others : ∀ id, id < m.threads.size → id ∉ m.running :: m.waiting →
    m'.thread id = m.thread id ∧ m'.status id = m.status id

/-- The thread gets control when it is resumed. -/
def Resumable (m : Machine) (id : Nat) : Prop :=
  ∀ args want, ∃ m', Exec.resume (.thread id :: args) want m = .ok () m' ∧ m'.running = id ∧
    m'.waiting = m.running :: m.waiting

/-- The machine `k` is `m` with a new thread for the program. -/
structure Renewed (m k : Machine) : Prop where
  same : k = { m with threads := k.threads }
  size : k.threads.size = m.threads.size
  program : k.thread 0 = {}
  others : ∀ id, id ≠ 0 → k.thread id = m.thread id

/-- What comes of a call from the host when none is under way. -/
inductive Replies (m : Machine) (steps : Nat) (callee : Value) (args : List Value) :
    Option (Except Fault (List Value) × Machine) → Prop where
  /-- A closure runs. What is suspended can be resumed, and if a fault ends the run, only threads that
  ran or waited when it was raised have gone. -/
  | runs {id : Nat} {closure : Closure} {fresh first : Machine} (called : callee = .closure id)
      (found : m.store.closures[id]? = some closure) (cleared : m.Renewed fresh)
      (entered : Exec.enter closure args 0 0 fresh = .ok () first)
      (suspended : ∀ id, m.status id = "suspended" → first.thread id = m.thread id ∧ first.Resumable id)
      (failed : ∀ fault m', run steps first = some (.error fault, m') →
        ∃ k, Relation.ReflTransGen Continues first k ∧ k.Concludes (.error fault) m' ∧ k.Abandons m') :
      Replies m steps callee args (run steps first)
  /-- A closure does not fit within the limits. -/
  | refuses {id : Nat} {closure : Closure} {fresh : Machine} {fault : Fault} (called : callee = .closure id)
      (found : m.store.closures[id]? = some closure) (cleared : m.Renewed fresh)
      (entered : Exec.enter closure args 0 0 fresh = .error fault fresh) :
      Replies m steps callee args (some (.error fault, fresh))
  /-- A function of the host gives results, and may change the store. -/
  | asks {id : Nat} {name : String} {results : List Value} {store : Store}
      (called : callee = .host id name)
      (answered : Exec.callHost id args m = .ok results { m with store }) :
      Replies m steps callee args (some (.ok results, { m with store }))
  /-- A function of the host fails, and may have changed the store. -/
  | asksInVain {id : Nat} {name : String} {fault : Fault} {store : Store}
      (called : callee = .host id name)
      (answered : Exec.callHost id args m = .error fault { m with store }) :
      Replies m steps callee args (some (.error fault, { m with store }))
  /-- The value cannot be called. -/
  | uncallable (closure : ∀ id, callee = .closure id → m.store.closures[id]? = none)
      (host : ∀ id name, callee ≠ .host id name) :
      Replies m steps callee args (some (.error (.call callee.typeName), m))

end Machine

/-! ## What hosts ask for -/

/-- What a host asks of an engine. -/
inductive Request where
  | run (text label : String) (args : List Value)
  | execute (unit : CodeUnit) (args : List Value)
  | call (callee : Value) (args : List Value)
  | putGlobal (name : String) (v : Value)
  | register (f : HostFunction)

namespace Engine

/-- What comes of a request within the given number of steps. -/
def serve (e : Engine) (steps : Nat) : Request → Outcome
  | .run text label args => e.run steps text label args
  | .execute unit args => e.execute steps unit args
  | .call callee args => e.call steps callee args
  | .putGlobal name v => some (.ok [], e.putGlobal name v)
  | .register f => some (.ok [], e.register f)

/-- The machine on which a request runs a chunk. -/
def chunk (e : Engine) (unit : CodeUnit) : Machine × Value :=
  let (id, store) := e.machine.store.newClosure ⟨unit, #[]⟩
  ({ e.machine with store }, .closure id)

/-- The call that a request makes, and the machine it is made on. -/
def callFor (e : Engine) : Request → Option (Machine × Value × List Value)
  | .run text label args =>
    match Compiler.compileSource text label with
    | .ok unit => some ((e.chunk unit).1, (e.chunk unit).2, args)
    | .error _ => none
  | .execute unit args => some ((e.chunk unit).1, (e.chunk unit).2, args)
  | .call callee args => some (e.machine, callee, args)
  | .putGlobal .. | .register .. => none

/-- The engines that come about as hosts ask for one thing after another. -/
def Used (e : Engine) : Prop :=
  ∃ config, Relation.ReflTransGen (fun e e' : Engine => ∃ steps request result,
    e.serve steps request = some (result, e')) (start config) e

end Engine

/-! ## In order -/

namespace Machine

/-- All threads are as they should be between two calls, whatever they once asked for. -/
def Rests (m : Machine) : Prop := ∃ asked, Session.Orderly ⟨m, false, asked⟩

/-- All threads are as they should be during a call. -/
def Engaged (m : Machine) : Prop := ∃ asked, Session.Orderly ⟨m, true, asked⟩

variable {m m' k : Machine} {fault : Fault}

theorem Rests.idle (h : m.Rests) : m.Idle := by
  obtain ⟨asked, h⟩ := h
  obtain ⟨waiting, frames⟩ := h.idle rfl
  have bottom : (m.running :: m.waiting).getLast? = some 0 := h.rooted.bottom
  have program : m.running = 0 := by simpa [show m.waiting = [] from waiting] using bottom
  exact ⟨program, waiting, program ▸ h.rooted.running_lt, frames⟩

theorem Rests.prepare (h : m.Rests) (threads : k.threads = m.threads) (running : k.running = m.running)
    (waiting : k.waiting = m.waiting) : k.Rests := by
  obtain ⟨asked, h⟩ := h
  exact ⟨asked, (Session.Moves.prepare (s := ⟨m, false, asked⟩) threads running waiting).orderly h⟩

theorem Continues.engaged (turn : m.Continues m') (h : m.Engaged) : m'.Engaged := by
  obtain ⟨asked, h⟩ := h
  cases turn with
  | step step => exact ⟨_, (Session.Moves.step (s := ⟨m, true, asked⟩) rfl step).orderly h⟩
  | catches step caught => exact ⟨_, (Session.Moves.fault (s := ⟨m, true, asked⟩) rfl step caught).orderly h⟩

theorem engaged_of_continues (turns : Relation.ReflTransGen Continues m m') (h : m.Engaged) : m'.Engaged := by
  induction turns with
  | refl => exact h
  | tail _ turn ih => exact turn.engaged ih

theorem Concludes.rests {result : Except Fault (List Value)} (ends : m.Concludes result m') (h : m.Engaged) :
    m'.Rests := by
  obtain ⟨asked, h⟩ := h
  cases ends with
  | returns step => exact ⟨_, (Session.Moves.finish (s := ⟨m, true, asked⟩) rfl step).orderly h⟩
  | fails step uncaught => exact ⟨_, (Session.Moves.fault (s := ⟨m, true, asked⟩) rfl step uncaught).orderly h⟩

/-- A fault that nobody catches ends the threads that run or wait and no other ones. -/
theorem Concludes.abandons (ends : m.Concludes (.error fault) m') (h : m.Engaged) : m.Abandons m' := by
  have rests := ends.rests h
  obtain ⟨asked, h⟩ := h
  cases ends with
  | @fails k _ fault step uncaught =>
    have does := step_does h.rooted (h.grounded _) (h.alive rfl _ List.mem_cons_self)
    rw [step] at does
    generalize m.deed = deed at does
    cases does with
    | fails apart =>
      have bound : ∀ id ∈ k.running :: k.waiting, id < k.threads.size := by
        rw [apart.running, apart.waiting]
        exact fun id mem => Nat.lt_of_lt_of_le (h.rooted.bound id mem) apart.size
      have each := thread_unwindFrom bound uncaught
      rw [apart.running, apart.waiting] at each
      have idle := rests.idle
      refine ⟨fun id mem => ?_, fun id inside away => ?_⟩
      · have died : m'.thread id = {} := by rw [each, if_pos mem]
        refine ⟨died, fun coroutine => ?_⟩
        simp [status, idle.running, idle.waiting, Ne.symm coroutine, died, Thread.isDead]
      · have program : 0 ∈ m.running :: m.waiting := List.mem_of_getLast? h.rooted.bottom
        have coroutine : id ≠ 0 := fun itself => away (itself ▸ program)
        have other : id ≠ m.running := fun itself => away (by simp [itself])
        have kept : m'.thread id = m.thread id := by
          rw [each, if_neg away, apart.others id inside other]
        refine ⟨kept, ?_⟩
        have waits : id ∉ m.waiting := fun mem => away (by simp [mem])
        simp [status, idle.running, idle.waiting, Ne.symm coroutine, kept, Ne.symm other, waits]

theorem resumable_of_suspended {id : Nat} (h : m.status id = "suspended") : m.Resumable id := by
  unfold status at h
  split at h
  · simp at h
  split at h
  · simp at h
  split at h
  · simp at h
  rename_i other waits alive
  have inside : ¬ m.threads.size ≤ id := fun outside =>
    alive (by rw [thread_of_outside outside]; rfl)
  have away : ¬ (m.running = id ∨ m.waiting.contains id = true) := not_or.2 ⟨other, waits⟩
  intro args want
  have resumed : Exec.resume (.thread id :: args) want m = .ok ()
      { (m.modifyCurrent fun t => { t with awaiting := want }).deliver id args with
        running := id
        waiting := m.running :: m.waiting } := by
    simp only [Exec.resume, Exec.threadArgument, List.head?_cons, Exec.bind_apply, Exec.pure_apply,
      Exec.get_apply, if_neg away, if_neg inside, if_neg alive, Exec.set_apply, running_deliver,
      waiting_deliver, running_modifyCurrent, waiting_modifyCurrent]
    rfl
  exact ⟨_, resumed, rfl, rfl⟩

/-- The program's thread is cleared before a closure is called. -/
theorem Idle.renewed (h : m.Idle) : m.Renewed (m.modifyThread 0 fun _ => {}) where
  same := rfl
  size := size_modifyThread
  program := thread_modifyThread_self h.inside
  others _ other := thread_modifyThread_ne other

theorem Renewed.eq (h : m.Renewed k) (idle : m.Idle) : k = m.modifyThread 0 fun _ => {} := by
  have threads : k.threads = (m.modifyThread 0 fun _ => {}).threads := by
    refine Array.ext (h.size.trans size_modifyThread.symm) fun id inside inside' => ?_
    have same : k.thread id = (m.modifyThread 0 fun _ => {}).thread id := by
      by_cases program : id = 0
      · rw [program, h.program, idle.renewed.program]
      · rw [h.others id program, idle.renewed.others id program]
    simpa only [thread, Array.getElem?_eq_getElem inside, Array.getElem?_eq_getElem inside',
      Option.getD_some] using same
  rw [h.same, threads]
  rfl

/-- A call that does not fit within the limits changes nothing. -/
theorem enter_error {closure : Closure} {args : List Value} {want n : Nat}
    (entered : Exec.enter closure args want n m = .error fault k) : k = m := by
  simp only [Exec.enter, Exec.bind_apply, Exec.get_apply] at entered
  split at entered
  · cases entered
    rfl
  · cases entered

/-- A function of the host touches the store alone. -/
theorem callHost_store (m : Machine) (id : Nat) (args : List Value) : ∃ store,
    (∃ results, Exec.callHost id args m = .ok results { m with store }) ∨
      ∃ fault, Exec.callHost id args m = .error fault { m with store } := by
  simp only [Exec.callHost, Exec.bind_apply, Exec.get_apply]
  cases m.hosts[id]? with
  | none => exact ⟨m.store, .inl ⟨[], rfl⟩⟩
  | some f =>
    simp only [Exec.onStore_apply]
    rcases (f.run args).run.run m.store with ⟨_ | results, store⟩
    · exact ⟨store, .inr ⟨_, rfl⟩⟩
    · exact ⟨store, .inl ⟨_, rfl⟩⟩

theorem Rests.engaged (h : m.Rests) {closure : Closure} {args : List Value}
    (entered : Exec.enter closure args 0 0 (m.modifyThread 0 fun _ => {}) = .ok () k) : k.Engaged := by
  have idle := h.idle
  obtain ⟨asked, h⟩ := h
  exact ⟨asked, h.call idle.waiting entered⟩

theorem Rests.suspended (h : m.Rests) {closure : Closure} {args : List Value}
    (entered : Exec.enter closure args 0 0 (m.modifyThread 0 fun _ => {}) = .ok () k) (id : Nat)
    (suspended : m.status id = "suspended") : k.thread id = m.thread id ∧ k.Resumable id := by
  have idle := h.idle
  have inside : (m.modifyThread 0 fun _ => {}).running < (m.modifyThread 0 fun _ => {}).threads.size := by
    rw [running_modifyThread, size_modifyThread, idle.running]
    exact idle.inside
  obtain ⟨apart, -⟩ := Session.enter_current inside entered
  have coroutine : id ≠ 0 := by
    rintro rfl
    simp [status, idle.running] at suspended
  have alive : id < m.threads.size := by
    by_contra outside
    have dead : (m.thread id).isDead = true := by rw [thread_of_outside (Nat.le_of_not_lt outside)]; rfl
    simp [status, idle.running, idle.waiting, Ne.symm coroutine, dead] at suspended
  have kept : k.thread id = m.thread id := by
    rw [apart.others id (size_modifyThread.symm ▸ alive) (by rw [running_modifyThread, idle.running]; exact coroutine)]
    exact thread_modifyThread_ne coroutine
  refine ⟨kept, resumable_of_suspended ?_⟩
  rw [← suspended]
  simp [status, apart.running, apart.waiting, kept]

theorem Rests.failed (h : m.Rests) {closure : Closure} {args : List Value}
    (entered : Exec.enter closure args 0 0 (m.modifyThread 0 fun _ => {}) = .ok () k) (steps : Nat)
    (fault : Fault) (m' : Machine) (ran : run steps k = some (.error fault, m')) :
    ∃ l, Relation.ReflTransGen Continues k l ∧ l.Concludes (.error fault) m' ∧ l.Abandons m' := by
  obtain ⟨l, turns, ends⟩ := exists_of_run ran
  exact ⟨l, turns, ends, ends.abandons (engaged_of_continues turns (h.engaged entered))⟩

/-- No call is turned away. -/
theorem Rests.replies (h : m.Rests) (steps : Nat) (callee : Value) (args : List Value) :
    m.Replies steps callee args (m.call steps callee args) := by
  have idle := h.idle
  have free : (!m.waiting.isEmpty || !(m.thread 0).isDead) = false := by
    simp [idle.waiting, Thread.isDead, idle.frames]
  have uncallable (none' : ∀ id, callee = .closure id → m.store.closures[id]? = none)
      (other : ∀ id name, callee ≠ .host id name) : m.Replies steps callee args
        (some (.error (.call callee.typeName), m)) := .uncallable none' other
  unfold call
  simp only [free, Bool.false_eq_true, if_false]
  cases callee with
  | closure id =>
    cases found : m.store.closures[id]? with
    | none =>
      simp only [found]
      exact uncallable (by rintro _ ⟨⟩; exact found) (by simp)
    | some closure =>
      cases entered : Exec.enter closure args 0 0 (m.modifyThread 0 fun _ => {}) with
      | ok u first =>
        simp only [found, entered]
        exact .runs rfl found idle.renewed entered (h.suspended entered) (h.failed entered steps)
      | error fault k =>
        simp only [found, entered]
        obtain rfl := enter_error entered
        exact .refuses rfl found idle.renewed entered
  | host id name =>
    obtain ⟨store, ⟨results, answered⟩ | ⟨fault, answered⟩⟩ := callHost_store m id args
    · simp only [answered]
      exact .asks rfl answered
    · simp only [answered]
      exact .asksInVain rfl answered
  | _ => exact uncallable (by simp) (by simp)

/-- After an answer no call is under way. -/
theorem Replies.rests {steps : Nat} {callee : Value} {args : List Value} {result : Except Fault (List Value)}
    (h : m.Rests) (replies : m.Replies steps callee args (some (result, m'))) : m'.Rests := by
  generalize outcome : some (result, m') = answer at replies
  cases replies with
  | runs called found cleared entered suspended failed =>
    rw [cleared.eq h.idle] at entered
    obtain ⟨k, turns, ends⟩ := exists_of_run outcome.symm
    exact ends.rests (engaged_of_continues turns (h.engaged entered))
  | refuses called found cleared entered =>
    cases outcome
    rw [cleared.eq h.idle]
    have idle := h.idle
    obtain ⟨asked, h⟩ := h
    exact ⟨asked, (h.reset idle.waiting).1⟩
  | asks called answered =>
    cases outcome
    exact h.prepare rfl rfl rfl
  | asksInVain called answered =>
    cases outcome
    exact h.prepare rfl rfl rfl
  | uncallable closure host =>
    cases outcome
    exact h

end Machine

namespace Engine

/-- A request makes its call on the engine's machine; a chunk has been added to the store. -/
theorem callFor_store {e : Engine} {request : Request} {m : Machine} {callee : Value} {args : List Value}
    (asks : e.callFor request = some (m, callee, args)) : m = { e.machine with store := m.store } := by
  cases request with
  | run text label args' =>
    simp only [callFor] at asks
    split at asks <;> cases asks
    rfl
  | execute unit args' =>
    cases asks
    rfl
  | call callee' args' =>
    cases asks
    rfl
  | putGlobal name v => cases asks
  | register f => cases asks

theorem serve_eq_call {e : Engine} {request : Request} {m : Machine} {callee : Value} {args : List Value}
    (asks : e.callFor request = some (m, callee, args)) (steps : Nat) :
    e.serve steps request = (m.call steps callee args).map fun (result, m) => (result, ⟨m⟩) := by
  cases request with
  | run text label args' =>
    simp only [callFor] at asks
    simp only [serve, run]
    cases compiled : Compiler.compileSource text label with
    | error fault => simp [compiled] at asks
    | ok unit =>
      simp only [compiled, Option.some.injEq, Prod.mk.injEq] at asks
      obtain ⟨rfl, rfl, rfl⟩ := asks
      rfl
  | execute unit args' =>
    cases asks
    rfl
  | call callee' args' =>
    cases asks
    rfl
  | putGlobal name v => cases asks
  | register f => cases asks

theorem serve_rests {e e' : Engine} (h : e.machine.Rests) {steps : Nat} {request : Request}
    {result : Except Fault (List Value)} (served : e.serve steps request = some (result, e')) :
    e'.machine.Rests := by
  cases asks : e.callFor request with
  | some call =>
    obtain ⟨m, callee, args⟩ := call
    have same := callFor_store asks
    have h : m.Rests := h.prepare (by rw [same]) (by rw [same]) (by rw [same])
    have replies := h.replies steps callee args
    rw [serve_eq_call asks, Option.map_eq_some_iff] at served
    obtain ⟨⟨result', m'⟩, answered, same⟩ := served
    cases same
    rw [answered] at replies
    exact replies.rests h
  | none =>
    cases request with
    | run text label args =>
      simp only [callFor] at asks
      simp only [serve, run] at served
      split at asks
      · cases asks
      · rename_i fault failed
        simp only [failed] at served
        cases served
        exact h
    | execute unit args => cases asks
    | call callee args => cases asks
    | putGlobal name v =>
      cases served
      exact h.prepare rfl rfl rfl
    | register f =>
      cases served
      exact h.prepare rfl rfl rfl

/-- After every request no call is under way. -/
theorem Used.rests {e : Engine} (h : e.Used) : e.machine.Rests := by
  obtain ⟨config, run⟩ := h
  induction run with
  | refl => exact ⟨_, Session.start_orderly config⟩
  | tail _ served ih =>
    obtain ⟨steps, request, result, served⟩ := served
    exact serve_rests ih served

/-- An engine can always be used again. Whatever it has been asked for, with any units of code and
whether calls returned or failed, no call is under way: the stack of threads is the program's thread,
which has no frames. So every call is answered. A closure runs on an empty thread; what is suspended
then can be resumed; and if a fault ends the run, the threads that ran or waited when it was raised are
dead and all others are as they were. -/
theorem Used.reusable {e : Engine} (h : e.Used) : e.machine.Idle ∧
    ∀ request m callee args, e.callFor request = some (m, callee, args) →
      m = { e.machine with store := m.store } ∧ ∀ steps, ∃ answer, m.Replies steps callee args answer ∧
        e.serve steps request = answer.map fun (result, m) => (result, ⟨m⟩) := by
  have rests := h.rests
  refine ⟨rests.idle, fun request m callee args asks => ⟨callFor_store asks, fun steps => ?_⟩⟩
  have same := callFor_store asks
  have rests : m.Rests := rests.prepare (by rw [same]) (by rw [same]) (by rw [same])
  exact ⟨_, rests.replies steps callee args, serve_eq_call asks steps⟩

/-- A chunk that calls `nil`. -/
def callsNil : CodeUnit :=
  ⟨0, "main chunk", "test", 0, true, #[.make .loadK 0 0, .make .call 0 1, .make .ret 0 0], #[1, 1, 1],
    #[.nil], []⟩

/-- After a call that failed the same chunk can be called again. -/
theorem Used.reusable_callsNil : ∃ e : Engine, (start {}).serve 2 (.execute callsNil []) =
      some (.error (.located "test" 1 (.call "nil")), e) ∧ e.machine.Idle ∧
    ∃ answer, (e.chunk callsNil).1.Replies 2 (e.chunk callsNil).2 [] answer ∧
      e.serve 2 (.execute callsNil []) = answer.map fun (result, m) => (result, ⟨m⟩) := by
  have failed : ∃ e : Engine, (start {}).serve 2 (.execute callsNil []) =
      some (.error (.located "test" 1 (.call "nil")), e) := ⟨_, rfl⟩
  obtain ⟨e, failed⟩ := failed
  have used : e.Used := ⟨{}, .single ⟨2, _, _, failed⟩⟩
  obtain ⟨idle, replies⟩ := used.reusable
  exact ⟨e, failed, idle, (replies (.execute callsNil []) _ _ _ rfl).2 2⟩

end Engine

end ScriptEngine
