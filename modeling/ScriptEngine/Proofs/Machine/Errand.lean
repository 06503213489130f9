import ScriptEngine.Proofs.Machine.Locality
import ScriptEngine.Proofs.Machine.Protection

/-!
# Calls that are under way

What one move of the machine, a step with the unwinding of its fault, does to a call that is under way on
some thread: the call stays under way, or it is over (`errand_move`). It is over when the move `Hands`
values to its thread, when a protected call around it catches the fault of the move, or when that fault
takes its caller away. A call that is under way is therefore so until some move ends it (`errand_run`).
-/

set_option linter.dupNamespace false

namespace ScriptEngine.Machine

variable {m m' : Machine} {id : Nat}

/-- One step, with the unwinding of its fault. -/
inductive Moves (m : Machine) : Machine → Prop where
  | step {m' : Machine} {r : Option (List Value)} (step : Exec.step m = .ok r m') : Moves m m'
  | fault {m' : Machine} {fault : Fault} (step : Exec.step m = .error fault m') :
      Moves m (m'.unwind (m'.locate fault)).2

/-- The next step hands `vs` to the innermost call on thread `id`: the results of its function, the
values of a yield or of the end of a coroutine that it resumed, or the arguments of the resume that it
yielded for. -/
inductive Hands (m : Machine) (id : Nat) : List Value → Prop where
  | returned {a b : Nat} (running : m.running = id) (next : m.next? = some (.ret, a, b)) :
      Hands m id (m.spread a)
  | ended {f : Frame} {a b : Nat} (waiting : m.waiting.head? = some id)
      (frames : m.current.frames = [f]) (next : m.next? = some (.ret, a, b)) :
      Hands m id (.boolean true :: f.pays (m.spread a))
  | yielded {callee : Value} {args given : List Value} {want : Nat}
      (waiting : m.waiting.head? = some id) (asked : m.nextCall? = some (callee, args, want))
      (target : m.finalTarget callee args = .ok (.core .yield, given)) :
      Hands m id (.boolean true :: given)
  | resumed {callee : Value} {args given : List Value} {want : Nat}
      (asked : m.nextCall? = some (callee, args, want))
      (target : m.finalTarget callee args = .ok (.core .resume, .thread id :: given)) :
      Hands m id given

/-- Control has passed to thread `id`, which waited in a resume or yield and gets `vs` there. -/
structure Passed (m m' : Machine) (id : Nat) (vs : List Value) : Prop where
  running : m'.running = id
  delivery : ∃ m₀ : Machine, m₀.thread id = m.thread id ∧
    m'.thread id = (m.thread id).receive m₀.store.cells.size ∧ m'.store = (m₀.deliver id vs).store
  flag : id ∈ m.waiting → vs.head? = some (Value.boolean true)

/-- The move concerns neither the state of thread `id` nor whether it waits. -/
structure Spares (m m' : Machine) (id : Nat) : Prop where
  thread : m'.thread id = m.thread id
  running : id ≠ m'.running
  waiting : id ∈ m'.waiting ↔ id ∈ m.waiting

/-- A step of the innermost frame `f` on top of `rest`, other than a return, has ended in `m'`. -/
structure Proceeds (m m' : Machine) (f : Frame) (rest : List Frame) : Prop where
  caller : ∃ new ip, (m'.thread m.running).frames = new ++ { f with ip } :: rest
  others : ∀ id, id < m.threads.size → id ≠ m.running →
    m.Spares m' id ∨ ∃ vs, m.Hands id vs ∧ m.Passed m' id vs

/-- A step of the innermost frame `f` on top of `rest` has raised a fault. -/
structure Falters (m m' : Machine) (f : Frame) (rest : List Frame) : Prop where
  alone : m.Alone m'
  guarded : ∀ e : Errand, Piled e.condition (f :: rest) e.base e.want e.layers → e.Guarded m'.current

theorem Alone.spares (alone : m.Alone m') (inside : id < m.threads.size) (other : id ≠ m.running) :
    m.Spares m' id :=
  ⟨alone.others id inside other, by rwa [alone.running], by rw [alone.waiting]⟩

/-- Nothing but the running thread has changed. -/
theorem Proceeds.of_alone {f : Frame} {rest : List Frame} (alone : m.Alone m')
    (caller : ∃ new ip, m'.current.frames = new ++ { f with ip } :: rest) : m.Proceeds m' f rest := by
  refine ⟨?_, fun id inside other => Or.inl (alone.spares inside other)⟩
  rw [← alone.running]
  exact caller

/-- Judging a comparison changes at most the frame that was entered for it. -/
theorem judge_cases (h : m.Sane) (running frames : Nat) :
    ∃ m', Exec.judge running frames m = .ok () m' ∧
      ((m.running ≠ running ∧ m' = m) ∨ m.running = running ∧ m.Alone m' ∧
        (m'.current.frames = m.current.frames ∨ frames < m.current.frames.length ∧
          ∃ top, m'.current.frames = top :: m.current.frames.tail)) := by
  simp only [Exec.judge, Exec.bind_apply, Exec.get_apply]
  by_cases same : m.running = running
  · simp only [if_pos same]
    by_cases entered : frames < m.current.frames.length
    · simp only [if_pos entered, Exec.set_apply]
      refine ⟨_, rfl, Or.inr ⟨same, .modifyCurrent h _, Or.inr ⟨entered, ?_⟩⟩⟩
      rw [current_modifyCurrent h.running_lt]
      cases top : m.current.frames with
      | nil =>
        rw [top] at entered
        exact absurd entered (Nat.not_lt_zero _)
      | cons f rest =>
        refine ⟨{ f with isCondition := true }, ?_⟩
        simp only [Thread.modifyFrame, top, List.tail_cons]
    · simp only [if_neg entered, Exec.bind_apply, Exec.pop_apply, Exec.push_apply]
      have turns := (Turns.drop h 1).push h (.boolean (m.top 1).isTruthy)
      refine ⟨_, rfl, Or.inr ⟨same, turns.alone, Or.inl ?_⟩⟩
      rw [turns.thread]
  · simp only [if_neg same]
    exact ⟨m, rfl, Or.inl ⟨same, rfl⟩⟩

/-- What a call does to the frames. -/
theorem call_proceeds {m₁ : Machine} (h : m.Sane) (alone : m.Alone m₁) {f : Frame} {rest : List Frame}
    {ip : Nat} (frames : m₁.current.frames = { f with ip } :: rest) {callee : Value}
    {args : List Value} {want : Nat} (asked : m.nextCall? = some (callee, args, want))
    (target : m₁.finalTarget callee args = m.finalTarget callee args) {u : Unit}
    (done : Exec.call callee args want m₁ = .ok u m') :
    m.Proceeds m' f rest ∧ (m'.running = m.running → m.Alone m' ∧
      (m'.current.frames = { f with ip } :: rest ∨
        ∃ top, m'.current.frames = top :: { f with ip } :: rest)) := by
  have sane := h.alone alone
  obtain ⟨reply, out, -, -⟩ := Exec.call_outcome sane callee args want
  have conducts := Exec.call_conducts sane.rooted (by simp [frames]) callee args want
  rw [done] at out conducts
  cases out with
  | @values m₂ vs alone₂ same =>
    have sane₂ := sane.alone alone₂
    have alone' := alone.trans h (alone₂.trans sane (.pushResults sane₂ want vs))
    have frames' : (m₂.pushResults want vs).current.frames = { f with ip } :: rest := by
      rw [current_pushResults sane₂.running_lt, same]
      exact frames
    exact ⟨.of_alone alone' ⟨[], ip, frames'⟩, fun _ => ⟨alone', Or.inl frames'⟩⟩
  | entered entered =>
    obtain ⟨cell, hs, -, -, thread⟩ := entered.thread
    have alone' := alone.trans h entered.alone
    have frames' : ∃ top, m'.current.frames = top :: { f with ip } :: rest := by
      rw [thread, ← frames]
      exact ⟨_, rfl⟩
    obtain ⟨top, frames'⟩ := frames'
    exact ⟨.of_alone alone' ⟨[top], ip, frames'⟩, fun _ => ⟨alone', Or.inr ⟨top, frames'⟩⟩⟩
  | blocked switched =>
    have other : m'.running ≠ m₁.running := switched.switch.ne sane.distinct
    -- to whom control went, and with what
    generalize handed : m₁.handover? (m₁.finalTarget callee args) = taker at conducts
    cases conducts with
    | stays apart => exact absurd apart.running other
    | @hands _ id rest' vs switched waiting =>
      have running := switched.running
      rw [alone.running, running] at other
      refine ⟨⟨⟨[], ip, ?_⟩, fun j inside away => ?_⟩, fun same => absurd (running.symm.trans same) other⟩
      · obtain ⟨hs, -, caller⟩ := switched.caller
        rw [← alone.running, caller]
        exact frames
      · rw [target] at handed
        have thread := alone.others j inside away
        have told : (m.Hands id vs ∧ (id ∈ m.waiting → vs.head? = some (.boolean true))) ∧
            (j ≠ id → (j ∈ rest' ↔ j ∈ m.waiting)) := by
          generalize found : m.finalTarget callee args = found' at handed
          unfold handover? at handed
          rw [alone.running, alone.waiting] at handed
          split at handed
          · split at handed
            · cases handed
            · rename_i free
              cases handed
              refine ⟨⟨.resumed asked found, fun mem => ?_⟩, fun _ => by simp [away]⟩
              exact absurd (Or.inl (List.mem_cons_of_mem _ mem)) free
          · split at handed
            · cases handed
            · rename_i waiting'
              cases handed
              exact ⟨⟨.yielded (by rw [waiting']; rfl) asked found, fun _ => rfl⟩, fun apart => by
                simp [waiting', apart]⟩
          · cases handed
        obtain ⟨⟨hands, flag⟩, waits⟩ := told
        by_cases there : j = id
        · subst there
          refine Or.inr ⟨vs, hands, running, ⟨m₁, thread, ?_, ?_⟩, flag⟩
          · rw [← thread]
            have got := switched.target
            rwa [running] at got
          · have got := switched.store
            rwa [running] at got
        · refine Or.inl ⟨?_, by rwa [running], by rw [waiting]; exact waits there⟩
          rw [switched.others j (by rw [alone.running]; exact away) (by rw [running]; exact there)]
          exact thread

/-- What an instruction other than a return does to the frames. -/
theorem Ordered.performs (h : m.Ordered Thread.Active) {f : Frame} {rest : List Frame} {op : Opcode}
    {a b : Nat} (poises : m.Poises f rest op a b) (other : op ≠ .ret) :
    match Exec.perform f.closure op a b m.advance with
    | .ok _ m' => m.Proceeds m' f rest
    | .error _ m' => m'.current.handlers.length ≤ m.current.handlers.length + 1 → m.Falters m' f rest := by
  obtain ⟨captured, d, poised⟩ := poises.poised
  have advanced : m.Alone m.advance := .modifyCurrent h.sane _
  have thread := poises.thread
  have none' := h.current.1
  have result := performed poised other
  generalize Exec.perform f.closure op a b m.advance = r at result
  cases result with
  | stays turns size closed list next =>
    rw [thread] at turns
    exact .of_alone (advanced.trans h.sane turns.alone) ⟨[], _, by rw [turns.thread]; rfl⟩
  | raises low high turns _ =>
    intro _
    rw [thread] at turns
    refine ⟨advanced.trans h.sane turns.alone, fun e above => ?_⟩
    rw [turns.thread]
    refine ⟨1, _, _, _, _, poises.upright.below, ?_⟩
    rcases above.pop with ⟨same, wants, ends, -⟩ | above
    · exact Or.inr ⟨same, wants, ends⟩
    · exact Or.inl above
  | @calls m₁ callee args want r asked turns dropped size closed next called =>
    have same : m₁.store = m.advance.store ∧ m₁.config = m.advance.config := by rw [dropped]; exact ⟨rfl, rfl⟩
    rw [thread] at turns
    have alone := advanced.trans h.sane turns.alone
    have sane := h.sane.alone alone
    have frames : m₁.current.frames = { f with ip := f.ip + 1 } :: rest := by rw [turns.thread]
    have asked' := poises.asks.trans asked
    have final : m₁.finalTarget callee args = m.finalTarget callee args :=
      finalTarget_congr (m := m) same.1 same.2 callee args
    have calling : m₁.Ordered (Thread.Calling want) :=
      (advance_ordered h).turns turns (poises.calls none' size closed next)
    have after := calling.call callee args
    have failed {fault : Fault} {m₂ : Machine} (done : Exec.call callee args want m₁ = .error fault m₂)
        (few : m₂.current.handlers.length ≤ m.current.handlers.length + 1) : m.Falters m₂ f rest := by
      obtain ⟨reply, out, -, -⟩ := Exec.call_outcome sane callee args want
      rw [done] at out
      have handlers := out.handlers_of_error
      rw [show m₁.current.handlers = m.current.handlers by rw [turns.thread]] at handlers
      cases out with
      | raised raised =>
        simp only [Reply.layers] at handlers
        obtain ⟨hs, guards, thread'⟩ := raised.guards (by omega)
        refine ⟨alone.trans h.sane raised.alone, fun e above => ?_⟩
        rw [thread']
        refine ⟨0, _, _, _, _, calling.current.2.2.guard calling.current.2.1 guards, Or.inl ?_⟩
        rw [List.drop_zero, frames]
        exact above.move _
    rcases called with rfl | ⟨-, rfl⟩
    · cases done : Exec.call callee args want m₁ with
      | ok u m₂ => exact (call_proceeds h.sane alone frames asked' final done).1
      | error fault m₂ => exact failed done
    · simp only [Exec.bind_apply]
      cases done : Exec.call callee args want m₁ with
      | error fault m₂ => exact failed done
      | ok u m₂ =>
        rw [done] at after
        obtain ⟨proceeds, stayed⟩ := call_proceeds h.sane alone frames asked' final done
        obtain ⟨m₃, judged, ⟨-, rfl⟩ | ⟨here, alone₃, which⟩⟩ :=
          judge_cases after.sane m.advance.running (rest.length + 1)
        · simp only [judged]
          exact proceeds
        · simp only [judged]
          obtain ⟨alone₂, frames₂⟩ := stayed here
          refine .of_alone (alone₂.trans h.sane alone₃) ?_
          rcases frames₂ with frames₂ | ⟨top, frames₂⟩ <;> rw [frames₂] at which
          · rcases which with frames₃ | ⟨more, -⟩
            · exact ⟨[], _, frames₃⟩
            · exact absurd more (by simp)
          · rcases which with frames₃ | ⟨-, top', frames₃⟩
            · exact ⟨[top], _, frames₃⟩
            · exact ⟨[top'], _, frames₃⟩

/-! ## One move -/

/-- What the call gives when a move hands `vs` to its thread. -/
inductive Errand.Gives (e : Errand) (m : Machine) (vs : List Value) : List Value → Prop where
  /-- The frame that ends the call returns. -/
  | returned (running : m.running = e.id) : Gives e m vs (List.replicate e.layers (Value.boolean true) ++
      if e.condition then [.boolean (vs.headD .nil).isTruthy] else vs)
  /-- Control comes back to the thread. -/
  | passed (other : m.running ≠ e.id) (flag : e.resumes = true → vs.head? = some (.boolean true)) :
      Gives e m vs (List.replicate e.layers (Value.boolean true) ++ vs)

/-- The move from `m` to `m'` has ended the call. -/
inductive Errand.Over (e : Errand) (m m' : Machine) : Prop where
  | handed {vs results : List Value} (hands : m.Hands e.id vs) (gives : e.Gives m vs results)
      (settles : e.Settles m' results) : Over e m m'
  | caught {fault : Fault} {k : Machine} (some' : 1 ≤ e.layers) (step : Exec.step m = .error fault k)
      (settles : e.Settles m' (e.refusal (k.locate fault))) : Over e m m'
  | lost {fault : Fault} {k : Machine} (step : Exec.step m = .error fault k) (lost : e.Lost m') :
      Over e m m'

section Move

variable {e : Errand}

theorem Spares.pending (h : m.Spares m' e.id) (pending : e.Pending m) : e.Pending m' :=
  pending.congr h.thread (fun _ => h.running) fun _ => h.waiting

/-- A call that is under way goes on, or is over, when control passes to its thread. -/
theorem Passed.errand {vs : List Value} (h : m.Passed m' e.id vs) (other : e.id ≠ m.running)
    (hands : m.Hands e.id vs) (pending : e.Pending m) : e.Pending m' ∨ e.Over m m' := by
  obtain ⟨running, ⟨m₀, same, thread, store⟩, flag⟩ := h
  rcases pending with inside | ⟨-, resumes, frames, wants, layers⟩
  · left
    left
    rw [thread]
    exact inside
  · right
    have gives : e.Gives m vs _ := .passed (Ne.symm other) fun yes => flag (resumes.2 yes)
    refine .handed hands gives ⟨running, ?_, ?_⟩
    · rw [current, running, thread]
      exact frames
    · rw [store_deliver, same] at store
      have values := topValues_withCells (m := m') (s := m₀.store) (t := { m.thread e.id with
        handlers := (m.thread e.id).handlers.drop (m.thread e.id).awaitingProtections
        awaitingProtections := 0 }) (by
          rw [current, running, thread, length_delivered]
          rfl) store
      rw [length_delivered, wants, layers] at values
      exact values

/-- A call under way on the running thread is inside a frame. -/
theorem Errand.Pending.inside (h : e.Pending m) (here : e.id = m.running) : e.Inside m.current := by
  rcases h with inside | ⟨other, -⟩
  · rw [current, ← here]
    exact inside
  · exact absurd here other

theorem Errand.Pending.guarded (h : e.Pending m) (blocked : (m.thread e.id).Blocked) :
    e.Guarded (m.thread e.id) :=
  blocked.guarded (h.imp_right fun apart => apart.2.2)

/-- A fault in a step leaves the protected calls in place. -/
theorem fault_errand (h : m.Ordered Thread.Active) (firm : ¬m.Slips) {fault : Fault}
    (step : Exec.step m = .error fault m') (inside : e.id < m.threads.size) (pending : e.Pending m) :
    m.Alone m' ∧ e.Guarded (m'.thread e.id) ∧ (e.id ≠ m'.running → e.Pending m') := by
  have few : m'.current.handlers.length ≤ m.current.handlers.length + 1 :=
    Nat.le_of_not_lt fun more => firm ⟨fault, m', step, more⟩
  have waits {m' : Machine} (alone : m.Alone m') (other : e.id ≠ m.running) :
      e.Pending m' ∧ e.Guarded (m'.thread e.id) := by
    refine ⟨(alone.spares inside other).pending pending, ?_⟩
    rw [alone.others e.id inside other]
    exact pending.guarded (h.others e.id inside other)
  cases frames : m.current.frames with
  | nil =>
    simp only [Exec.step, Exec.bind_apply, Exec.get_apply, frames, Exec.throw_apply] at step
    cases step
    have other : e.id ≠ m.running := fun here => by
      have := Piled.length_lt (pending.inside here)
      rw [frames] at this
      exact absurd this (Nat.not_lt_zero _)
    have waiting := waits (.refl h.sane) other
    exact ⟨.refl h.sane, waiting.2, fun _ => waiting.1⟩
  | cons f rest =>
    obtain ⟨op, a, b, poises⟩ := h.poises frames
    by_cases returns : op = .ret
    · subst returns
      obtain ⟨r, m₁, done, -⟩ := h.returns poises
      rw [done] at step
      cases step
    · have effect := h.performs poises returns
      rw [poises.performs returns] at step
      simp only [Exec.bind_apply] at step
      generalize Exec.perform f.closure op a b m.advance = r at effect step
      cases r with
      | ok u m₁ => cases step
      | error fault' m₁ =>
        cases step
        have falters := effect few
        refine ⟨falters.alone, ?_, fun other => ?_⟩
        · by_cases here : e.id = m.running
          · have above := pending.inside here
            rw [Errand.Inside, frames] at above
            rw [here, ← falters.alone.running]
            exact falters.guarded e above
          · exact (waits falters.alone here).2
        · rw [falters.alone.running] at other
          exact (waits falters.alone other).1

/-- A return ends the call under way, or one above it or on another thread. -/
theorem return_errand (h : m.Ordered Thread.Active) {f : Frame} {rest : List Frame} {a b : Nat}
    (poises : m.Poises f rest .ret a b) {r : Option (List Value)} (step : Exec.step m = .ok r m')
    (inside : e.id < m.threads.size) (pending : e.Pending m) (alive : e.base ≠ []) :
    e.Pending m' ∨ e.Over m m' := by
  have advanced : m.Alone m.advance := .modifyCurrent h.sane _
  have sane := h.sane.alone advanced
  have turns := Turns.drop sane a
  rw [poises.thread] at turns
  have alone := advanced.trans h.sane turns.alone
  have frames : (m.advance.drop a).current.frames = { f with ip := f.ip + 1 } :: rest := by
    rw [turns.thread]
  have spread : m.advance.spread a = m.spread a := by
    have stack : m.advance.current.stack = m.current.stack := by rw [poises.thread]
    simp only [Machine.spread, stack]
    rfl
  have which (here : e.id = m.running) : (rest = e.base ∧ f.want = e.want ∧ f.protections = e.layers ∧
      f.isCondition = e.condition) ∨ Piled e.condition rest e.base e.want e.layers := by
    have above := pending.inside here
    rw [Errand.Inside, poises.frames] at above
    exact above.pop
  have deep (none' : rest = []) : e.id ≠ m.running := fun here => by
    rcases which here with ⟨same, -⟩ | above
    · exact alive (same.symm.trans none')
    · have := above.length_lt
      rw [none'] at this
      exact absurd this (Nat.not_lt_zero _)
  -- the machine without the frame
  obtain ⟨k, gone, left, remain⟩ : ∃ k, (m.advance.drop a).modifyCurrent
      (Frame.leave { f with ip := f.ip + 1 } rest) = k ∧ m.Alone k ∧ k.current.frames = rest := by
    refine ⟨_, rfl, alone.trans h.sane (.modifyCurrent (h.sane.alone alone) _), ?_⟩
    rw [current_modifyCurrent (h.sane.alone alone).running_lt]
    rfl
  have sane := h.sane.alone left
  have waiting : (m.advance.drop a).waiting = m.waiting := rfl
  have how := Exec.returnFrom_cases frames (m.spread a)
  rw [gone, waiting] at how
  rw [poises.returns rfl] at step
  simp only [Exec.bind_apply, Exec.popSpread_eq, spread] at step
  rcases how with ⟨below, done⟩ | ⟨none', -, done⟩ | ⟨none', resumer, others, waiting, done⟩ <;>
    rw [done] at step <;> cases step
  · have running : (k.pushResults f.want (f.pays (m.spread a))).running = m.running := by
      rw [pushResults, running_pushResultsOn, left.running]
    have remain' : (k.pushResults f.want (f.pays (m.spread a))).current.frames = rest := by
      rw [current_pushResults sane.running_lt]
      exact remain
    by_cases here : e.id = m.running
    · rcases which here with ⟨base, wants, layers, condition⟩ | above
      · right
        have pays : f.pays (m.spread a) = List.replicate e.layers (Value.boolean true) ++
            if e.condition then [.boolean ((m.spread a).headD .nil).isTruthy] else m.spread a := by
          rw [Frame.pays, condition, layers]
        refine .handed (.returned here.symm poises.instruction) (.returned here.symm)
          ⟨running.trans here.symm, remain'.trans base, ?_⟩
        rw [← pays, ← wants]
        exact topValues_pushResults sane.running_lt _ _
      · have there : ((k.pushResults f.want (f.pays (m.spread a))).thread e.id).frames = rest := by
          rw [here, ← running]
          exact remain'
        refine Or.inl (Or.inl ?_)
        rw [Errand.Inside]
        exact there ▸ above
    · have alone' : m.Alone (k.pushResults f.want (f.pays (m.spread a))) :=
        left.trans h.sane (.pushResults sane _ _)
      exact Or.inl ((alone'.spares inside here).pending pending)
  · exact Or.inl ((left.spares inside (deep none')).pending pending)
  · have other := deep none'
    have same := left.others e.id inside other
    by_cases there : e.id = resumer
    · subst there
      have passed : m.Passed { k.deliver e.id (.boolean true :: f.pays (m.spread a)) with
          running := e.id, waiting := others } e.id (.boolean true :: f.pays (m.spread a)) := by
        refine ⟨rfl, ⟨k, same, ?_, rfl⟩, fun _ => rfl⟩
        rw [← same]
        exact thread_deliver_self (Nat.lt_of_lt_of_le inside left.size)
      exact passed.errand other (.ended (by simp [waiting]) (none' ▸ poises.frames) poises.instruction) pending
    · have spares : m.Spares { k.deliver resumer (.boolean true :: f.pays (m.spread a)) with
          running := resumer, waiting := others } e.id := by
        refine ⟨?_, there, by simp [waiting, there]⟩
        show (k.deliver resumer _).thread e.id = _
        rw [thread_deliver_ne there, same]
      exact Or.inl (spares.pending pending)

/-- A call that is under way stays so along a move that does not slip, or is over. -/
theorem errand_move (h : m.Ordered Thread.Active) (firm : ¬m.Slips) (inside : e.id < m.threads.size)
    (pending : e.Pending m) (alive : e.base ≠ []) (moves : m.Moves m') :
    e.Pending m' ∨ e.Over m m' := by
  cases moves with
  | @fault m₁ fault step =>
    obtain ⟨alone, guarded, pending'⟩ := fault_errand h firm step inside pending
    have sane := h.sane.alone alone
    rcases unwindFrom_errand (m₁.locate fault) sane.bound sane.distinct guarded pending' alive with
      pending | ⟨some', settles⟩ | lost
    · exact Or.inl pending
    · exact Or.inr (.caught some' step settles)
    · exact Or.inr (.lost step lost)
  | @step _ r step =>
    cases frames : m.current.frames with
    | nil =>
      simp only [Exec.step, Exec.bind_apply, Exec.get_apply, frames, Exec.throw_apply] at step
      cases step
    | cons f rest =>
      obtain ⟨op, a, b, poises⟩ := h.poises frames
      by_cases returns : op = .ret
      · subst returns
        exact return_errand h poises step inside pending alive
      · have effect := h.performs poises returns
        rw [poises.performs returns] at step
        simp only [Exec.bind_apply] at step
        generalize Exec.perform f.closure op a b m.advance = r' at effect step
        cases r' with
        | error fault m₁ => cases step
        | ok u m₁ =>
          cases step
          by_cases here : e.id = m.running
          · left
            obtain ⟨new, ip, frames'⟩ := effect.caller
            have above := pending.inside here
            rw [Errand.Inside, frames] at above
            left
            rw [Errand.Inside, here, frames']
            exact (above.move ip).append new
          · rcases effect.others e.id inside here with spares | ⟨vs, hands, passed⟩
            · exact Or.inl (spares.pending pending)
            · exact passed.errand here hands pending

/-- A call is under way only on a thread that there is. -/
theorem Errand.Pending.lt (pending : e.Pending m) (alive : e.base ≠ []) : e.id < m.threads.size := by
  apply Classical.byContradiction
  intro outside
  have empty : (m.thread e.id).frames = [] := by
    simp [thread, Array.getElem?_eq_none (Nat.le_of_not_lt outside)]
  rcases pending with above | ⟨-, -, frames, -⟩
  · have := Piled.length_lt above
    rw [empty] at this
    exact absurd this (Nat.not_lt_zero _)
  · exact alive (frames.symm.trans empty)

end Move

/-! ## Runs -/

/-- A run of moves none of which slips. -/
inductive Runs (m : Machine) : Machine → Prop where
  | refl : Runs m m
  | move {m' m'' : Machine} (run : Runs m m') (firm : ¬m'.Slips) (moves : m'.Moves m'') : Runs m m''

theorem moves_ordered (h : m.Ordered Thread.Active) (firm : ¬m.Slips) (moves : m.Moves m') :
    m'.Ordered Thread.Active := by
  cases moves with
  | step step => exact step_ordered h step
  | fault step => exact unwind_ordered (error_ordered h firm step) _

theorem Runs.ordered (run : m.Runs m') (h : m.Ordered Thread.Active) : m'.Ordered Thread.Active := by
  induction run with
  | refl => exact h
  | move run firm moves ih => exact moves_ordered ih firm moves

/-- A call that is under way is so until some move ends it. -/
theorem errand_run {e : Errand} (h : m.Ordered Thread.Active) (pending : e.Pending m)
    (alive : e.base ≠ []) (run : m.Runs m') :
    e.Pending m' ∨ ∃ m₁ m₂, m.Runs m₁ ∧ m₁.Moves m₂ ∧ m₂.Runs m' ∧ m₂.Ordered Thread.Active ∧
      e.Over m₁ m₂ := by
  induction run with
  | refl => exact Or.inl pending
  | @move k k' run firm moves ih =>
    have ordered := run.ordered h
    rcases ih with pending | ⟨m₁, m₂, before, ends, after, ordered₂, ended⟩
    · rcases errand_move ordered firm (pending.lt alive) pending alive moves with pending | ended
      · exact Or.inl pending
      · exact Or.inr ⟨k, k', run, moves, .refl, moves_ordered ordered firm moves, ended⟩
    · exact Or.inr ⟨m₁, m₂, before, ends, after.move firm moves, ordered₂, ended⟩

end ScriptEngine.Machine
