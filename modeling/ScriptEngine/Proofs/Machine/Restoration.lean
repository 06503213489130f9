import ScriptEngine.Proofs.Machine.Request
import ScriptEngine.Proofs.Machine.Retention

/-!
# A caught fault leaves everything as it was

Unwinding cuts a thread's stack, closure list and frames back to the lengths that a handler noted. That
this is the state at the protected call, cell by cell and frame by frame, is a fact about whole runs: the
thread retains that state as long as the handler is there (`Holds.retains`), whatever program and host do
meanwhile (`Happens`). So wherever a fault `Catches`, the thread is `Restored` (`Catches.thread_restored`).
-/

set_option linter.dupNamespace false

namespace ScriptEngine

/-! ## The protected call -/

/-- The handlers of a single protected call. -/
theorem Thread.Guards.single {t : Thread} {want : Nat} {hs : List Handler} (guards : t.Guards want 1 hs) :
    hs ++ t.handlers = (t.pushHandler want).handlers := by
  obtain ⟨h, rfl⟩ := List.length_eq_one_iff.1 guards.length
  obtain ⟨frames, stack, captures⟩ := guards.noted h List.mem_cons_self
  have first := guards.first h rfl
  have last := guards.last h rfl
  obtain ⟨a, b, c, d, e⟩ := h
  simp only at frames stack captures first last
  obtain rfl : e = 0 := by omega
  simp only [Thread.pushHandler, ← frames, ← stack, ← captures, ← last]
  rfl

/-- A table that gives way to its call handler is the first argument. -/
theorem Machine.given_of_callTarget {m : Machine} {callee target : Value} {args given : List Value}
    (found : m.callTarget callee args = .ok (target, given)) (other : callee ≠ target) :
    given = callee :: args := by
  cases callee with
  | table id =>
    simp only [callTarget] at found
    cases looked : m.metamethod (.table id) "__call" with
    | error fault =>
      rw [looked] at found
      cases found
    | ok handler =>
      rw [looked] at found
      cases handler <;> cases found <;> rfl
  | _ =>
    cases found
    exact absurd rfl other

/-- A single protected call: what it comes to by itself, if the callee does not come to it again. -/
theorem Exec.pcall_cases {m : Machine} (h : m.Sane) {given : List Value}
    (proper : given.head? ≠ some (.core .pcall)) (want : Nat) :
    ∃ reply, m.Outcome want reply (pcall given want m) ∧ reply.layers ≤ 1 ∧
      (∀ n fault, reply = .raised n fault → n = 1) ∧
      ∀ fault k, call (given.headD .nil) given.tail 0 (m.guards want 1) = .error fault k →
        reply = .raised 1 fault ∨ reply = .values [.boolean false, fault.toValue] := by
  cases given with
  | nil =>
    refine ⟨_, .finished h _, Nat.zero_le 1, fun n fault same => ?_, fun fault k failed => ?_⟩
    · cases same
    · cases failed
      exact Or.inr rfl
  | cons callee rest =>
    have other : callee ≠ .core .pcall := fun same => proper (by rw [same]; rfl)
    by_cases itself : ∃ given, m.callTarget callee rest = .ok (.core .pcall, given)
    · obtain ⟨given, found⟩ := itself
      refine ⟨_, pcall_itself h found other want, Nat.le_refl 1, fun n fault same => ?_,
        fun fault k failed => ?_⟩
      · cases same
        rfl
      · have again : call callee rest 0 (m.guards want 1) = pcall (callee :: rest) 0 (m.guards want 1) := by
          rw [← Machine.given_of_callTarget found other]
          have found' : (m.guards want 1).callTarget callee rest = .ok (.core .pcall, given) := found
          simp only [call, bind_apply, get_apply, found', ofExcept_ok]
          rfl
        have out := pcall_itself (h.alone (.modifyCurrent h (·.pushHandler want))) found other 0
        change call callee rest 0 (m.guards want 1) = .error fault k at failed
        rw [again] at failed
        change Machine.Outcome _ _ _ (pcall (callee :: rest) 0 (m.guards want 1)) at out
        rw [failed] at out
        cases out
        exact Or.inl rfl
    · obtain ⟨reply, layered⟩ := pcall_single h (fun given found => itself ⟨given, found⟩) want
      refine ⟨_, layered.guarded, layered.layers_le, fun n fault same => ?_, fun fault k failed => ?_⟩
      · have none' := layered.single
        cases reply with
        | raised k fault' =>
          simp only [Reply.layered] at same
          split at same
          · cases same
          · cases same
            simp only [Reply.layers] at none'
            omega
        | _ => cases same
      · have plain := layered.plain
        have none' := layered.single
        change call callee rest 0 (m.guards want 1) = .error fault k at failed
        rw [failed] at plain
        cases plain
        simp only [Reply.layers] at none'
        subst none'
        simp only [Reply.layered]
        split
        · exact Or.inr rfl
        · exact Or.inl rfl

namespace Machine

variable {m m' : Machine}

open Thread (Retains)

/-- The machine that has taken the operands of its next instruction. -/
def taken (m : Machine) : Machine :=
  match m.next? with
  | some (op, a, b) => m.advance.drop (op.touched a b)
  | none => m

/-- The thread `id` runs and is what `t` was, with the results of a protected call that caught a fault on
top of its stack. -/
structure Restored (m : Machine) (id : Nat) (t : Thread) (want : Nat) (v : Value) : Prop where
  running : m.running = id
  frames : m.current.frames = t.frames
  captures : m.current.captures = t.captures
  handlers : m.current.handlers = t.handlers
  stack : ∃ results, m.current.stack = t.stack ++ results ∧ results.size = slots want
  values : m.topValues (slots want) = delivered want [.boolean false, v]

/-- The innermost handler of the running thread catches a fault. -/
theorem unwind_of_handlers {handler : Handler} {outer : List Handler}
    (handlers : m.current.handlers = handler :: outer) (fault : Fault) :
    m.unwind fault = (true, m.catchWith handler outer fault) := by
  have here : (m.thread m.running).handlers = handler :: outer := handlers
  rw [unwind, unwindFrom.eq_def, here]

/-- A handler that is the only one above those of the thread brings the thread back. -/
theorem catchWith_restored (inside : m.running < m.threads.size) (fault : Fault) {t : Thread} {want : Nat}
    {handler : Handler} {outer : List Handler} (handlers : m.current.handlers = handler :: outer)
    (kept : Retains (t.pushHandler want) m.current)
    (gone : (m.catchWith handler outer fault).current.handlers.length ≤ t.handlers.length) :
    (m.catchWith handler outer fault).Restored m.running t want fault.toValue := by
  have current := current_catchWith inside handler outer fault
  obtain ⟨new, same, notes⟩ := kept.handlers
  rw [handlers] at same
  cases new with
  | cons h new =>
    -- a handler that knows of no other leaves those below it
    rw [List.cons_append] at same
    obtain ⟨rfl, rfl⟩ := List.cons.inj same
    obtain ⟨-, -, -, none'⟩ := notes handler List.mem_cons_self
    rw [current] at gone
    simp only [none', Thread.withCells, List.drop_zero, List.length_append, Thread.pushHandler,
      List.length_cons] at gone
    omega
  | nil =>
    obtain ⟨rfl, rfl⟩ := List.cons.inj same
    obtain ⟨inner, frames, -⟩ := kept.frames
    have stack := kept.stack
    have captures := kept.captures
    simp only [Thread.pushHandler] at frames stack captures
    refine ⟨running_catchWith .., ?_, ?_, ?_, ?_, ?_⟩
    · rw [current]
      simp only [Thread.withCells, Thread.restore, frames]
      rw [List.length_append, Nat.add_sub_cancel, List.drop_left]
    · rw [current]
      simpa [Thread.withCells, Thread.restore] using captures
    · rw [current]
      rfl
    · refine ⟨Array.range' m.store.cells.size (slots want), ?_, by simp⟩
      rw [current]
      show m.current.stack.shrink t.stack.size ++ _ = _
      rw [Array.shrink_eq_take, stack]
      rfl
    · exact topValues_pushResults (by simpa using inside) _ _

/-- A fault that takes the handler away from the thread brings the thread back. -/
theorem unwindFrom_restored (fault : Fault) {id : Nat} {t : Thread} {want : Nat}
    (kept : Retains (t.pushHandler want) (m.thread id)) {k : Nat} {waiting : List Nat}
    (bound : ∀ j ∈ k :: waiting, j < m.threads.size)
    (caught : m.unwindFrom fault k waiting = (true, m'))
    (gone : (m'.thread id).handlers.length ≤ t.handlers.length) :
    m'.Restored id t want fault.toValue := by
  have some' : (t.pushHandler want).handlers ≠ [] := List.cons_ne_nil _ _
  have back {m : Machine} (inside : m.running < m.threads.size) {handler : Handler}
      {outer : List Handler} (handlers : m.current.handlers = handler :: outer)
      (kept : Retains (t.pushHandler want) (m.thread id))
      (gone : ((m.catchWith handler outer fault).thread id).handlers.length ≤ t.handlers.length) :
      (m.catchWith handler outer fault).Restored id t want fault.toValue := by
    by_cases itself : id = m.running
    · subst itself
      refine catchWith_restored inside fault handlers kept ?_
      rw [current, running_catchWith]
      exact gone
    · rw [thread_catchWith_ne itself] at gone
      obtain ⟨new, same, -⟩ := kept.handlers
      simp only [same, List.length_append, Thread.pushHandler, List.length_cons] at gone
      omega
  induction waiting generalizing m k with
  | nil =>
    unfold unwindFrom at caught
    cases handlers : (m.thread k).handlers with
    | cons handler outer =>
      rw [handlers] at caught
      cases caught
      exact back (m := { m with running := k, waiting := [] }) (bound k (by simp)) handlers kept gone
    | nil =>
      rw [handlers] at caught
      cases caught
  | cons resumer rest ih =>
    unfold unwindFrom at caught
    cases handlers : (m.thread k).handlers with
    | cons handler outer =>
      rw [handlers] at caught
      cases caught
      exact back (m := { m with running := k, waiting := resumer :: rest }) (bound k (by simp)) handlers
        kept gone
    | nil =>
      rw [handlers] at caught
      obtain ⟨-, same⟩ := retains_passed kept some' handlers
      refine ih (m := m.modifyThread k fun _ => {}) (same ▸ kept) (fun j mem => ?_) caught
      simpa using bound j (List.mem_cons_of_mem _ mem)

/-! ## Runs -/

/-- What comes next: the host adds to the machine, calls one of its functions or lets a closure be
called, or the machine moves from a state that is not barred. -/
inductive Happens (Barred : Machine → Prop) (m : Machine) : Machine → Prop where
  | register {f : HostFunction} (honest : f.Honest) : Happens Barred m (m.register f)
  | setGlobal (name : String) (v : Value) : Happens Barred m (m.setGlobal name v)
  | chunk {text label : String} {unit : CodeUnit}
      (compiled : Compiler.compileSource text label = .ok unit) :
      Happens Barred m { m with store := (m.store.newClosure ⟨unit, #[]⟩).2 }
  | takeOutput : Happens Barred m { m with store := { m.store with output := "" } }
  | enter {m' : Machine} {id : Nat} {closure : Closure} {args : List Value} (idle : m.waiting = [])
      (dead : (m.thread 0).frames = []) (found : m.store.closures[id]? = some closure)
      (entered : Exec.enter closure args 0 0 (m.modifyThread 0 fun _ => {}) = .ok () m') :
      Happens Barred m m'
  | host {m' : Machine} {id : Nat} {args : List Value}
      (called : (∃ results, Exec.callHost id args m = .ok results m') ∨
        ∃ fault, Exec.callHost id args m = .error fault m') : Happens Barred m m'
  | move {m' : Machine} (free : ¬Barred m) (moves : m.Moves m') : Happens Barred m m'

theorem Reachable.happens {Barred : Machine → Prop} (h : m.Reachable Barred)
    (next : m.Happens Barred m') : m'.Reachable Barred := by
  cases next with
  | register honest => exact h.register honest
  | setGlobal name v => exact h.setGlobal name v
  | chunk compiled => exact h.chunk compiled
  | takeOutput => exact h.takeOutput
  | enter idle dead found entered => exact h.enter idle dead found entered
  | host called => exact h.host called
  | move free moves =>
    cases moves with
    | step step => exact h.step free step
    | fault step => exact h.fault free step

/-- From `m` the machine has come to `m'` without applying the protected call to itself, and all the while
there has been a handler above `n` others on the thread `id`. -/
inductive Holds (id n : Nat) (m : Machine) : Machine → Prop where
  | refl (there : n < (m.thread id).handlers.length) : Holds id n m m
  | next {m' m'' : Machine} (run : Holds id n m m') (next : m'.Happens Doubles m'')
      (there : n < (m''.thread id).handlers.length) : Holds id n m m''

theorem Reachable.in_order (h : m.Reachable Doubles) : m.Ordered Thread.Active :=
  h.ordered fun _ ordered slips => slips.doubles ordered

/-- A function of the host changes the store only. -/
theorem threads_callHost {id : Nat} {args : List Value}
    (called : (∃ results, Exec.callHost id args m = .ok results m') ∨
      ∃ fault, Exec.callHost id args m = .error fault m') : m'.threads = m.threads := by
  simp only [Exec.callHost, Exec.bind_apply, Exec.get_apply] at called
  cases found : m.hosts[id]? with
  | none =>
    simp only [found] at called
    rcases called with ⟨vs, done⟩ | ⟨fault, done⟩ <;> cases done
    rfl
  | some f =>
    simp only [found, Exec.onStore_apply] at called
    cases ran : (f.run args).run.run m.store with
    | mk result store =>
      simp only [ran] at called
      cases result <;> rcases called with ⟨vs, done⟩ | ⟨fault, done⟩ <;> cases done <;> rfl

/-- A thread with frames is one of those that there are. -/
theorem lt_of_frames {id : Nat} (some' : (m.thread id).frames ≠ []) : id < m.threads.size := by
  apply Nat.lt_of_not_le
  intro outside
  apply some'
  simp [thread, Array.getElem?_eq_none outside]

/-- What happens next leaves alone what lies below a handler that stays. -/
theorem Happens.retains {t₀ : Thread} {id : Nat} (reach : m.Reachable Doubles)
    (kept : Retains t₀ (m.thread id)) (some' : t₀.frames ≠ [])
    (marked : (t₀.frames.map (·.protections)).sum < t₀.handlers.length) (next : m.Happens Doubles m')
    (there : t₀.handlers.length ≤ (m'.thread id).handlers.length) : Retains t₀ (m'.thread id) := by
  have ordered := reach.in_order
  obtain ⟨inner, frames, -⟩ := kept.frames
  have alive : (m.thread id).frames ≠ [] := by
    rw [frames]
    exact List.append_ne_nil_of_right_ne_nil _ some'
  have inside := lt_of_frames alive
  cases next with
  | register | setGlobal | chunk | takeOutput => exact kept
  | enter idle dead found entered =>
    have program : m.running = 0 := by simpa [idle] using ordered.sane.bottom
    have other : id ≠ 0 := by
      rintro rfl
      exact alive dead
    rw [Exec.enter_apply] at entered
    split at entered
    · cases entered
    · cases entered
      rw [push_eq_pushResults, pushResults, thread_pushResultsOn_ne (by simpa [program] using other),
        thread_modifyCurrent_ne (by simpa [program] using other), thread_modifyThread_ne other]
      exact kept
  | host called =>
    rw [thread, threads_callHost called]
    exact kept
  | move free moves =>
    have more (itself : id = m.running) : t₀.frames.length < m.current.frames.length := by
      subst itself
      exact frames_lt_of_retains ordered.current kept marked
    cases moves with
    | step step => exact ordered.step_retains free inside kept more step there
    | fault step =>
      have after := error_ordered ordered (fun slip => free (slip.doubles ordered)) step
      exact unwindFrom_retains _ (ordered.error_retains free inside kept more step)
        (fun none' => by simp [none'] at marked) after.sane.bound there

/-- As long as the handler is there, so is all that lies below it. -/
theorem Holds.retains {t₀ : Thread} {id : Nat} (reach : m.Reachable Doubles)
    (kept : Retains t₀ (m.thread id)) (some' : t₀.frames ≠ [])
    (marked : t₀.handlers.length = (t₀.frames.map (·.protections)).sum + 1) {n : Nat}
    (above : t₀.handlers.length = n + 1) (run : Holds id n m m') :
    m'.Reachable Doubles ∧ Retains t₀ (m'.thread id) := by
  induction run with
  | refl there => exact ⟨reach, kept⟩
  | next run next there ih =>
    obtain ⟨reach', kept'⟩ := ih
    exact ⟨reach'.happens next, next.retains reach' kept' some' (by omega) (by omega)⟩

/-- The protected call that `m` makes for `want` results with the arguments `given` catches `fault`, with
which the machine comes to `m'` and of which it makes `v`. -/
inductive Catches (m : Machine) (want : Nat) (given : List Value) :
    Machine → Fault → Value → Prop where
  /-- What it calls refuses its arguments or is no function. -/
  | refused {m' k : Machine} {fault : Fault}
      (fails : Exec.call (given.headD .nil) given.tail 0 (m.taken.guards want 1) = .error fault k)
      (step : Exec.step m = .ok none m') : Catches m want given m' fault fault.toValue
  /-- What it calls fails before it has begun. -/
  | raised {m' k : Machine} {fault : Fault} (step : Exec.step m = .error fault k)
      (caught : k.unwind (k.locate fault) = (true, m')) :
      Catches m want given m' fault (k.locate fault).toValue
  /-- Later, a fault takes the handler away that has been there since the call. -/
  | later {m₁ m₂ m' k : Machine} {fault : Fault} (step : Exec.step m = .ok none m₁)
      (held : Holds m.running m.current.handlers.length m₁ m₂) (free : ¬m₂.Doubles)
      (fails : Exec.step m₂ = .error fault k) (caught : k.unwind (k.locate fault) = (true, m'))
      (gone : (m'.thread m.running).handlers.length ≤ m.current.handlers.length) :
      Catches m want given m' fault (k.locate fault).toValue

section Call

variable {f : Frame} {rest : List Frame} {op : Opcode} {a b : Nat} {callee : Value}
  {args given : List Value} {want : Nat}

/-- The step that makes the protected call. -/
theorem Poises.step_pcall (poises : m.Poises f rest op a b)
    (asked : m.nextCall? = some (callee, args, want))
    (target : m.callTarget callee args = .ok (.core .pcall, given)) :
    Exec.step m = (do Exec.pcall given want; pure none) m.taken ∨
      want = 1 ∧ Exec.step m =
        (do Exec.pcall given want; Exec.judge m.running (rest.length + 1); pure none) m.taken := by
  obtain ⟨captured, d, poised⟩ := poises.poised
  rw [poises.asks] at asked
  have ret : op ≠ .ret := by
    rintro rfl
    cases asked
  have taken : m.taken = m.advance.drop (op.touched a b) := by rw [Machine.taken, poises.instruction]
  have target' : (m.advance.drop (op.touched a b)).callTarget callee args =
    .ok (.core .pcall, given) := target
  have called : Exec.call callee args want (m.advance.drop (op.touched a b)) =
      Exec.pcall given want (m.advance.drop (op.touched a b)) := by
    simp only [Exec.call, Exec.bind_apply, Exec.get_apply, target', Exec.ofExcept_ok]
    rfl
  rw [poises.performs ret, taken]
  rcases calls_of_request poised.sane.running_lt poised.frames asked with direct | ⟨one, judged⟩
  · left
    rw [Exec.bind_apply, Exec.bind_apply, direct, called]
  · right
    refine ⟨one, ?_⟩
    simp only [Exec.bind_apply, judged, called]
    cases Exec.pcall given want (m.advance.drop (op.touched a b)) <;> rfl

theorem Poises.taken (h : m.Ordered Thread.Active) (poises : m.Poises f rest op a b) :
    m.Alone m.taken ∧ m.taken.current = { m.current with
      stack := m.current.stack.take (m.current.stack.size - op.touched a b)
      frames := { f with ip := f.ip + 1 } :: rest } := by
  obtain ⟨captured, d, poised⟩ := poises.poised
  have turns := Turns.drop poised.sane (op.touched a b)
  rw [poises.thread] at turns
  rw [Machine.taken, poises.instruction]
  exact ⟨(Alone.modifyCurrent h.sane _).trans h.sane turns.alone, turns.thread⟩

/-- A call under one protected call that goes on leaves the handler on top of what was there. -/
theorem Outcome.retains {k k' : Machine} {reply : Reply} {u : Unit} (sane : k.Sane)
    (out : k.Outcome want reply (.ok u k')) (few : reply.layers ≤ 1)
    (there : k.current.handlers.length < (k'.thread k.running).handlers.length) :
    Retains (k.current.pushHandler want) (k'.thread k.running) ∧
      (k'.running = k.running → k.current.frames.length < (k'.thread k.running).frames.length) := by
  have one {n : Nat} {hs : List Handler} (guards : k.current.Guards want n hs) (few : n ≤ 1)
      (more : k.current.handlers.length < (hs ++ k.current.handlers).length) :
      n = 1 ∧ hs ++ k.current.handlers = (k.current.pushHandler want).handlers := by
    have length := guards.length
    rw [List.length_append] at more
    obtain rfl : n = 1 := by omega
    exact ⟨rfl, guards.single⟩
  cases out with
  | @values m₂ vs alone same =>
    have now : (m₂.pushResults want vs).thread k.running = (m₂.pushResults want vs).current := by
      rw [← alone.running, current, pushResults, running_pushResultsOn]
    rw [now, current_pushResults (sane.alone alone).running_lt, same] at there
    exact absurd there (Nat.lt_irrefl _)
  | @entered m₂ n c args entered =>
    obtain ⟨cell, hs, -, guards, now⟩ := entered.thread
    have same : k'.thread k.running = k'.current := by rw [← entered.alone.running]; rfl
    rw [same, now] at there ⊢
    obtain ⟨rfl, handlers⟩ := one guards few there
    refine ⟨⟨?_, ?_, ⟨[_], rfl, fun g mem => ?_⟩, [], handlers, by simp⟩, fun _ => Nat.lt_succ_self _⟩
    · show (k.current.stack.push cell).take k.current.stack.size = k.current.stack
      simp
    · simp [Thread.pushHandler, Thread.entered]
    · obtain rfl := List.mem_singleton.1 mem
      exact ⟨Nat.le_refl _, Nat.le_refl _⟩
  | @blocked m₂ n id vs switched =>
    obtain ⟨hs, guards, now⟩ := switched.caller
    rw [now] at there ⊢
    obtain ⟨rfl, handlers⟩ := one guards few there
    refine ⟨⟨by simp [Thread.pushHandler], by simp [Thread.pushHandler], ⟨[], rfl, by simp⟩, [], handlers,
      by simp⟩, fun same => ?_⟩
    exact absurd same (switched.switch.ne sane.distinct)

/-- Marking the frame that was entered for a comparison changes nothing below. -/
theorem retains_modifyFrame {t t₀ : Thread} (kept : Retains t₀ t) (more : t₀.frames.length < t.frames.length) :
    Retains t₀ (t.modifyFrame ({ · with isCondition := true })) := by
  cases frames : t.frames with
  | nil => simp [frames] at more
  | cons g rest =>
    rw [frames] at more
    obtain ⟨base, captureBase, inner, same, bases⟩ := kept.above frames (Nat.le_of_lt_succ more)
    simp only [Thread.modifyFrame, frames]
    refine ⟨kept.stack, kept.captures, ⟨{ g with isCondition := true } :: inner, by simp [same], ?_⟩,
      kept.handlers⟩
    intro g' mem
    rcases List.mem_cons.1 mem with rfl | mem
    · exact ⟨base, captureBase⟩
    · exact bases g' mem

/-- After the step that made the protected call, its handler is on top of what was there. -/
theorem Poises.retains_pcall (h : m.Ordered Thread.Active) (poises : m.Poises f rest op a b)
    (asked : m.nextCall? = some (callee, args, want))
    (target : m.callTarget callee args = .ok (.core .pcall, given))
    (proper : given.head? ≠ some (.core .pcall)) (step : Exec.step m = .ok none m')
    (there : m.current.handlers.length < (m'.thread m.running).handlers.length) :
    Retains (m.taken.current.pushHandler want) (m'.thread m.running) := by
  obtain ⟨alone, thread⟩ := poises.taken h
  have sane := h.sane.alone alone
  obtain ⟨reply, out, few, -⟩ := Exec.pcall_cases sane proper want
  have handlers : m.current.handlers = m.taken.current.handlers := by rw [thread]
  rw [handlers, ← alone.running] at there
  rw [← alone.running]
  rcases poises.step_pcall asked target with direct | ⟨rfl, judged⟩
  · rw [direct, Exec.bind_apply] at step
    cases done : Exec.pcall given want m.taken with
    | error fault k =>
      rw [done] at step
      cases step
    | ok u k =>
      rw [done] at step out
      cases step
      exact (out.retains sane few there).1
  · rw [judged, Exec.bind_apply] at step
    cases done : Exec.pcall given 1 m.taken with
    | error fault k =>
      rw [done] at step
      cases step
    | ok u k =>
      rw [done] at step out
      obtain ⟨k', judged'⟩ := judge_ok m.running (rest.length + 1) k
      simp only [Exec.bind_apply, judged'] at step
      cases step
      obtain ⟨inside, -⟩ := out.grows sane
      have bound : m.taken.current.frames.length = rest.length + 1 := by rw [thread]; rfl
      have kept (same : (m'.thread m.taken.running).handlers = (k.thread m.taken.running).handlers) :=
        out.retains sane few (same ▸ there)
      rw [← alone.running] at judged'
      rcases judge_thread inside judged' with same | ⟨entered, flagged⟩ | ⟨same, finished, cell, pushed⟩
      · rw [same]
        exact (kept (by rw [same])).1
      · have handlers : (m'.thread m.taken.running).handlers = (k.thread m.taken.running).handlers := by
          rw [flagged, Thread.modifyFrame]
          split <;> rfl
        rw [flagged]
        exact retains_modifyFrame (kept handlers).1 (by simpa [Thread.pushHandler, bound] using entered)
      · -- the call is not over, so there is no result to be judged
        have more := (kept (by rw [pushed, ← same]; rfl)).2 same
        rw [← same] at more
        exact absurd (bound ▸ more) (Nat.not_lt.2 finished)

/-- Results that are pushed at once. -/
theorem restored_pushResults (inside : m.running < m.threads.size) (v : Value) (want : Nat) :
    (m.pushResults want [.boolean false, v]).Restored m.running m.current want v := by
  have current : (m.pushResults want [.boolean false, v]).current = _ := current_pushResults inside
  refine ⟨by simp [pushResults], ?_, ?_, ?_,
    ⟨Array.range' m.store.cells.size (slots want), ?_, by simp⟩, topValues_pushResults inside _ _⟩ <;>
    rw [current] <;> rfl

/-- Judging the result of a protected call that has failed changes nothing. -/
theorem Restored.judge {id n : Nat} {t : Thread} {v : Value} (h : m.Restored id t 1 v)
    (inside : m.running < m.threads.size) (finished : t.frames.length ≤ n)
    (judged : Exec.judge id n m = .ok () m') : m'.Restored id t 1 v := by
  obtain ⟨running, frames, captures, handlers, ⟨results, stack, size⟩, values⟩ := h
  obtain ⟨cell, rfl⟩ : ∃ cell, results = #[cell] := Array.size_eq_one_iff.1 size
  have top : m.top 1 = .boolean false := by
    have value : m.topValues 1 = [.boolean false] := values
    rw [topValues, stack] at value
    rw [Machine.top, Thread.cell?, stack]
    simpa using value
  have entered : ¬n < m.current.frames.length := by
    rw [frames]
    exact Nat.not_lt.2 finished
  simp only [Exec.judge, Exec.bind_apply, Exec.get_apply, if_pos running, if_neg entered, Exec.pop_apply,
    Exec.push_apply, top] at judged
  cases judged
  have inside' : (m.drop 1).running < (m.drop 1).threads.size := by simpa [drop] using inside
  have current : ((m.drop 1).pushResults 1 [.boolean (Value.boolean false).isTruthy]).current = _ :=
    current_pushResults inside'
  rw [current_drop inside, ← push_eq_pushResults] at current
  refine ⟨running, ?_, ?_, ?_, ⟨#[(m.drop 1).store.cells.size], ?_, rfl⟩, ?_⟩
  · rw [current]
    exact frames
  · rw [current]
    exact captures
  · rw [current]
    exact handlers
  · rw [current]
    simp [Thread.withCells, stack, slots]
  · rw [push_eq_pushResults]
    exact topValues_pushResults inside' 1 [.boolean false]

theorem Holds.there {id n : Nat} (run : Holds id n m m') : n < (m.thread id).handlers.length := by
  induction run with
  | refl there => exact there
  | next _ _ _ ih => exact ih

/-- What the protected call calls refuses to be called. -/
theorem Poises.refused (h : m.Ordered Thread.Active) (poises : m.Poises f rest op a b)
    (asked : m.nextCall? = some (callee, args, want))
    (target : m.callTarget callee args = .ok (.core .pcall, given))
    (proper : given.head? ≠ some (.core .pcall)) {fault : Fault} {k : Machine}
    (fails : Exec.call (given.headD .nil) given.tail 0 (m.taken.guards want 1) = .error fault k)
    (step : Exec.step m = .ok none m') :
    m'.Restored m.running m.taken.current want fault.toValue := by
  obtain ⟨alone, thread⟩ := poises.taken h
  have sane := h.sane.alone alone
  obtain ⟨reply, out, -, -, which⟩ := Exec.pcall_cases sane proper want
  have done (k : Machine) (done : Exec.pcall given want m.taken = .ok () k) :
      k.Restored m.running m.taken.current want fault.toValue ∧ k.running < k.threads.size := by
    rw [done] at out
    rcases which fault _ fails with rfl | rfl
    · cases out
    · cases out with
      | values alone' same =>
        have inside := (sane.alone alone').running_lt
        rw [← alone.running, ← alone'.running, ← same]
        exact ⟨restored_pushResults inside _ _, by simpa [pushResults] using inside⟩
  rcases poises.step_pcall asked target with direct | ⟨rfl, judged⟩
  · rw [direct, Exec.bind_apply] at step
    cases result : Exec.pcall given want m.taken with
    | error fault k =>
      rw [result] at step
      cases step
    | ok u k =>
      rw [result] at step
      cases step
      exact (done _ result).1
  · rw [judged, Exec.bind_apply] at step
    cases result : Exec.pcall given 1 m.taken with
    | error fault k =>
      rw [result] at step
      cases step
    | ok u k =>
      rw [result] at step
      obtain ⟨k', judged'⟩ := judge_ok m.running (rest.length + 1) k
      simp only [Exec.bind_apply, judged'] at step
      cases step
      obtain ⟨restored, inside⟩ := done _ result
      exact restored.judge inside (by rw [thread]; rfl) judged'

/-- What the protected call calls fails in the very step. -/
theorem Poises.raised (h : m.Ordered Thread.Active) (poises : m.Poises f rest op a b)
    (asked : m.nextCall? = some (callee, args, want))
    (target : m.callTarget callee args = .ok (.core .pcall, given))
    (proper : given.head? ≠ some (.core .pcall)) {fault : Fault} {k : Machine}
    (step : Exec.step m = .error fault k) (caught : k.unwind (k.locate fault) = (true, m')) :
    m'.Restored m.running m.taken.current want (k.locate fault).toValue := by
  obtain ⟨alone, thread⟩ := poises.taken h
  have sane := h.sane.alone alone
  obtain ⟨reply, out, -, one, -⟩ := Exec.pcall_cases sane proper want
  have failed : Exec.pcall given want m.taken = .error fault k := by
    cases result : Exec.pcall given want m.taken with
    | error fault' k' =>
      rcases poises.step_pcall asked target with direct | ⟨-, judged⟩
      · rw [direct, Exec.bind_apply, result] at step
        cases step
        rfl
      · rw [judged, Exec.bind_apply, result] at step
        cases step
        rfl
    | ok u k' =>
      rcases poises.step_pcall asked target with direct | ⟨-, judged⟩
      · rw [direct, Exec.bind_apply, result] at step
        cases step
      · obtain ⟨k'', judged'⟩ := judge_ok m.running (rest.length + 1) k'
        rw [judged, Exec.bind_apply, result] at step
        simp only [Exec.bind_apply, judged'] at step
        cases step
  rw [failed] at out
  cases out with
  | @raised _ n _ raised =>
    obtain rfl := one n fault rfl
    obtain ⟨hs, guards, now⟩ := raised.guards (Nat.le_refl 1)
    rw [guards.single] at now
    have running : k.running = m.running := raised.alone.running.trans alone.running
    have kept : Retains (m.taken.current.pushHandler want) k.current := by
      rw [now]
      exact ⟨by simp [Thread.pushHandler], by simp [Thread.pushHandler], ⟨[], rfl, by simp⟩, [], rfl,
        by simp⟩
    have handlers : k.current.handlers = _ := congrArg Thread.handlers now
    rw [unwind_of_handlers handlers] at caught
    cases caught
    refine running ▸ catchWith_restored (m := k) ?_ _ handlers kept ?_
    · exact (sane.alone raised.alone).running_lt
    · rw [current_catchWith (sane.alone raised.alone).running_lt]
      exact Nat.le_refl _

/-- The place of a raised value is not noted. -/
theorem locate_raised (m : Machine) (v : Value) : m.locate (.raised v) = .raised v := by
  unfold locate
  split <;> rfl

/-- In every run in which the protected call is never applied to itself, a protected call that catches a
fault leaves its thread as it was with the callee and the arguments gone: frames, cells of the stack,
closure list and handlers. On top of that are the results, and a raised value is the one that arrives. -/
theorem Catches.thread_restored (reach : m.Reachable Doubles) (free : ¬m.Doubles)
    (asked : m.nextCall? = some (callee, args, want))
    (target : m.callTarget callee args = .ok (.core .pcall, given)) {fault : Fault} {v : Value}
    (catches : m.Catches want given m' fault v) :
    m'.Restored m.running m.taken.current want v ∧ ∀ payload, fault = .raised payload → v = payload := by
  have h := reach.in_order
  have proper : given.head? ≠ some (.core .pcall) := by
    intro again
    obtain ⟨others, rfl⟩ := List.head?_eq_some_iff.1 again
    exact free ⟨callee, args, want, others, asked, target⟩
  obtain ⟨f, rest, frames⟩ : ∃ f rest, m.current.frames = f :: rest := by
    cases frames : m.current.frames with
    | nil => simp [nextCall?, next?, frames] at asked
    | cons f rest => exact ⟨f, rest, rfl⟩
  obtain ⟨op, a, b, poises⟩ := h.poises frames
  obtain ⟨alone, thread⟩ := poises.taken h
  cases catches with
  | refused fails step =>
    refine ⟨poises.refused h asked target proper fails step, ?_⟩
    rintro payload rfl
    rfl
  | raised step caught =>
    refine ⟨poises.raised h asked target proper step caught, ?_⟩
    rintro payload rfl
    rw [locate_raised]
    rfl
  | @later m₁ m₂ _ k fault step held noDouble fails caught gone =>
    have handlers : m.taken.current.handlers = m.current.handlers := by rw [thread]
    have kept := poises.retains_pcall h asked target proper step held.there
    have count : (m.taken.current.pushHandler want).handlers.length =
        ((m.taken.current.pushHandler want).frames.map (·.protections)).sum + 1 := by
      have active := h.current.length_handlers
      rw [frames] at active
      simpa [Thread.pushHandler, thread] using active
    obtain ⟨reach₂, kept₂⟩ := held.retains (reach.step free step) kept
      (by simp [Thread.pushHandler, thread]) count (by simp [Thread.pushHandler, handlers])
    have h₂ := reach₂.in_order
    have inside : m.running < m₂.threads.size := by
      apply lt_of_frames
      obtain ⟨inner, same, -⟩ := kept₂.frames
      rw [same]
      simp [Thread.pushHandler, thread]
    have failed := error_ordered h₂ (fun slip => noDouble (slip.doubles h₂)) fails
    have kept₃ := h₂.error_retains noDouble inside kept₂ (fun same => ?_) fails
    · refine ⟨unwindFrom_restored _ kept₃ failed.sane.bound caught (by rw [handlers]; exact gone), ?_⟩
      rintro payload rfl
      rw [locate_raised]
      rfl
    · rw [same] at kept₂
      exact frames_lt_of_retains h₂.current kept₂ (by omega)

end Call

/-- A step that takes the value of a global calls nothing. -/
theorem not_doubles_getGlobal {a b : Nat} (next : m.next? = some (.getGlobal, a, b)) : ¬m.Doubles := by
  rintro ⟨callee, args, want, rest, asked, -⟩
  simp [nextCall?, next, request?, Opcode.arithmetic?] at asked

/-- A protected call of a function that refuses its arguments. -/
theorem Catches.thread_restored_status : ∃ (m m' : Machine) (fault : Fault) (v : Value),
    m.Reachable Doubles ∧ m.nextCall? = some (.core .pcall, [.core .status], 0) ∧
    m.Catches 0 [.core .status] m' fault v ∧ m'.Restored m.running m.taken.current 0 v := by
  obtain ⟨m, u, reach, running, -, threads, -, asked, -⟩ :=
    (((Reachable.start {}).setGlobal "p" (.core .pcall)).setGlobal "s" (.core .status)).launch_call
      (((Fresh.machine (by decide)).setGlobal _ _).setGlobal _ _) (fun _ _ _ => not_doubles_getGlobal)
      ((global_setGlobal_ne _ (by decide) _).trans (global_setGlobal_self _ _ rfl))
      (global_setGlobal_self _ _ rfl) rfl
  have frames : m.current.frames = [⟨⟨u, #[]⟩, 2, 0, 0, 0, 0, false⟩] := by
    rw [Machine.current, thread, threads, running]
    rfl
  have free : ¬m.Doubles := by
    rintro ⟨callee, args, want, rest, asked', target⟩
    rw [asked] at asked'
    cases asked'
    cases target
  obtain ⟨fault, k, m', step, caught⟩ : ∃ fault k m', Exec.step m = .error fault k ∧
      k.unwind (k.locate fault) = (true, m') := by
    have h := reach.in_order
    obtain ⟨op, a, b, poises⟩ := h.poises frames
    have inside := (h.sane.alone (poises.taken h).1).running_lt
    have failed : Exec.pcall [.core .status] 0 m.taken =
        .error (.expected "coroutine.status" 1 "coroutine" none) (m.taken.guards 0 1) := rfl
    have step : Exec.step m =
        .error (.expected "coroutine.status" 1 "coroutine" none) (m.taken.guards 0 1) := by
      rcases poises.step_pcall asked rfl with direct | ⟨one, -⟩
      · rw [direct, Exec.bind_apply, failed]
      · cases one
    have handlers : (m.taken.guards 0 1).current.handlers = _ :=
      congrArg Thread.handlers (current_modifyCurrent inside)
    exact ⟨_, _, _, step, unwind_of_handlers handlers _⟩
  have catches : m.Catches 0 [.core .status] m' fault (k.locate fault).toValue := .raised step caught
  exact ⟨m, m', fault, _, reach, asked, catches, (Catches.thread_restored reach free asked rfl catches).1⟩

end Machine

end ScriptEngine
