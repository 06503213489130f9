import ScriptEngine.Proofs.Machine.Crossing
import ScriptEngine.Proofs.Machine.Settlement

/-!
# What a call gives

A call that an activation makes `Calls` for its results: at once, or when the frame that it has entered returns, when
control comes back to the thread that it has blocked, or when a protected call catches a fault (`Ends`). This says
what the results are without regard to how many of them are wanted. Where the activation goes on, it finds as many of
them as it wants, or all of them in one multi-value (`Calls.values`).
-/

set_option linter.dupNamespace false

namespace ScriptEngine

namespace Machine

variable {m m' : Machine} {id : Nat}

/-- A return calls nothing. -/
theorem nextCall?_ret {a b : Nat} (next : m.next? = some (.ret, a, b)) : m.nextCall? = none := by
  simp [nextCall?, next, request?, Opcode.arithmetic?]

/-- A thread that waits is handed one list of values. -/
theorem Hands.unique (away : m.running ≠ id) {vs vs' : List Value} (h : m.Hands id vs) (h' : m.Hands id vs') :
    vs = vs' := by
  cases h with
  | returned running _ => exact absurd running away
  | ended _ frames next =>
    cases h' with
    | returned running _ => exact absurd running away
    | ended _ frames' next' =>
      cases List.cons.inj (frames.symm.trans frames')
      cases next.symm.trans next'
      subst_vars
      rfl
    | yielded _ asked _ | resumed asked _ => cases asked.symm.trans (nextCall?_ret next)
  | yielded _ asked target =>
    cases h' with
    | returned running _ => exact absurd running away
    | ended _ _ next => cases asked.symm.trans (nextCall?_ret next)
    | yielded _ asked' target' =>
      cases asked.symm.trans asked'
      cases target.symm.trans target'
      rfl
    | resumed asked' target' =>
      cases asked.symm.trans asked'
      cases target.symm.trans target'
  | resumed asked target =>
    cases h' with
    | returned running _ => exact absurd running away
    | ended _ _ next => cases asked.symm.trans (nextCall?_ret next)
    | yielded _ asked' target' =>
      cases asked.symm.trans asked'
      cases target.symm.trans target'
    | resumed asked' target' =>
      cases asked.symm.trans asked'
      cases target.symm.trans target'
      rfl

/-- The values that a frame pays are those on top when it returns. -/
theorem Hands.spread (h : m.Sane) (running : m.running = id) {a b : Nat} (next : m.next? = some (.ret, a, b))
    {vs : List Value} (hands : m.Hands id vs) : vs = m.spread a := by
  cases hands with
  | returned _ next' =>
    cases next.symm.trans next'
    rfl
  | ended waiting _ _ =>
    have distinct := h.distinct
    cases waits : m.waiting with
    | nil => simp [waits] at waiting
    | cons k rest =>
      rw [waits] at waiting distinct
      cases waiting
      exact absurd (running ▸ List.mem_cons_self) (List.nodup_cons.1 distinct).1
  | yielded _ asked _ | resumed asked _ => cases asked.symm.trans (nextCall?_ret next)

/-- The machine in which a call with `a` arguments is made: callee and arguments are gone. -/
def calling (m : Machine) (a : Nat) : Machine := m.advance.drop (a + 1)

/-- The step that makes a call. -/
theorem Poises.step_call {f : Frame} {rest : List Frame} {a b : Nat} (h : m.Sane) (poises : m.Poises f rest .call a b) :
    Exec.step m = (do Exec.call (m.top (a + 1)) (m.spread a) b; pure none) (m.calling a) := by
  have inside : m.advance.running < m.advance.threads.size := (h.alone (.modifyCurrent h _)).running_lt
  have stack : m.advance.current.stack = m.current.stack := by rw [poises.thread]
  have spread : m.advance.spread a = m.spread a := by
    simp only [Machine.spread, stack]
    rfl
  have top : (m.advance.drop a).top 1 = m.top (a + 1) := by
    rw [show 1 = 0 + 1 from rfl, top_drop inside, Nat.add_comm]
    simp only [Machine.top, Thread.cell?, stack]
    rfl
  rw [poises.performs (by simp), Exec.bind_apply]
  simp only [Exec.perform, Exec.bind_apply, Exec.popSpread_eq, Exec.pop_apply, drop_drop, spread, top]
  rfl

/-- The machine that makes the call is in order. -/
theorem Ordered.calling (h : m.Ordered Thread.Active) {f : Frame} {rest : List Frame} {a b : Nat}
    (poises : m.Poises f rest .call a b) : (m.calling a).Ordered (Thread.Calling b) ∧ m.Alone (m.calling a) ∧
      (m.calling a).current.frames = { f with ip := f.ip + 1 } :: rest := by
  have advanced := advance_ordered h
  have turns := Turns.drop advanced.sane (a + 1)
  have thread := turns.thread
  rw [poises.thread] at turns thread
  exact ⟨advanced.turns turns (poises.calls h.current.1 (size_call a b) rfl rfl),
    .trans h.sane (.modifyCurrent h.sane _) turns.alone, by rw [Machine.calling, thread]⟩

/-- What the move that makes a call comes to: the call is over at once, or it is under way, or a fault in it has
been caught by itself or further down. -/
inductive Opens (m m' : Machine) (f : Frame) (rest : List Frame) (a b : Nat) : Prop where
  | values {k : Machine} {vs : List Value} (called : Exec.call (m.top (a + 1)) (m.spread a) b (m.calling a) =
      .ok () (k.pushResults b vs)) (alone : (m.calling a).Alone k) (same : k.current = (m.calling a).current)
      (next : m' = k.pushResults b vs) : Opens m m' f rest a b
  | begins {n : Nat} {resumes : Bool}
      (pending : Errand.Pending ⟨m.running, { f with ip := f.ip + 1 } :: rest, b, n, false, resumes⟩ m') :
      Opens m m' f rest a b
  | refused {fault : Fault} {k : Machine} (step : Exec.step m = .error fault k)
      (settled : m'.Settled m.running ({ f with ip := f.ip + 1 } :: rest) b [.boolean false, (k.locate fault).toValue]) :
      Opens m m' f rest a b
  | lost (fewer : (m'.thread m.running).frames.length ≤ rest.length) : Opens m m' f rest a b

theorem Ordered.opens (h : m.Ordered Thread.Active) (firm : ¬m.Slips) {f : Frame} {rest : List Frame} {a b : Nat}
    (poises : m.Poises f rest .call a b) (moves : m.Moves m') : m.Opens m' f rest a b := by
  obtain ⟨calling, alone, frames⟩ := h.calling poises
  have none' : (m.calling a).current.awaitingProtections = 0 := calling.current.1
  have handlers : (m.calling a).current.handlers = m.current.handlers := by
    have turns := Turns.drop (advance_ordered h).sane (a + 1)
    rw [Machine.calling, turns.thread, poises.thread]
  have step := poises.step_call h.sane
  rw [Exec.bind_apply] at step
  obtain ⟨reply, out, -, -⟩ := Exec.call_outcome calling.sane (m.top (a + 1)) (m.spread a) b
  cases moves with
  | @step _ r done =>
    rw [done] at step
    generalize called : Exec.call (m.top (a + 1)) (m.spread a) b (m.calling a) = result at step out
    cases out with
    | raised => cases step
    | values alone' same =>
      cases step
      exact .values called alone' same rfl
    | @entered _ n c args entered =>
      cases step
      obtain ⟨cell, hs, -, -, thread⟩ := entered.thread
      have running : m'.running = m.running := entered.alone.running.trans alone.running
      have pending : Errand.Pending ⟨m.running, { f with ip := f.ip + 1 } :: rest, b, n, false, false⟩ m' := by
        refine Or.inl ?_
        show Piled false (m'.thread m.running).frames _ b n
        rw [← running, show m'.thread m'.running = m'.current from rfl, thread, ← frames]
        exact ⟨[], _, rfl, rfl, rfl, rfl⟩
      exact .begins pending
    | @blocked _ n id vs switched =>
      cases step
      obtain ⟨hs, -, caller⟩ := switched.caller
      have other : m'.running ≠ m.running := alone.running ▸ switched.switch.ne calling.sane.distinct
      have pending : Errand.Pending
          ⟨m.running, { f with ip := f.ip + 1 } :: rest, b, n, false, decide (m.running ∈ m'.waiting)⟩ m' := by
        refine Or.inr ⟨other.symm, by simp, ?_⟩
        show Errand.Waits _ (m'.thread m.running)
        rw [← alone.running, caller]
        exact ⟨frames, rfl, by simp [none']⟩
      exact .begins pending
  | @fault k fault failed =>
    have few : k.current.handlers.length ≤ m.current.handlers.length + 1 :=
      Nat.le_of_not_lt fun more => firm ⟨fault, k, failed, more⟩
    have raised : Exec.call (m.top (a + 1)) (m.spread a) b (m.calling a) = .error fault k := by
      rw [failed] at step
      generalize Exec.call (m.top (a + 1)) (m.spread a) b (m.calling a) = result at step
      cases result <;> cases step
      rfl
    rw [raised] at out
    have count := out.handlers_of_error
    rw [handlers] at count
    cases out with
    | @raised _ n _ raised =>
      simp only [Reply.layers] at count
      obtain ⟨hs, guards, thread⟩ := raised.guards (by omega)
      have running : k.running = m.running := raised.alone.running.trans alone.running
      let e : Errand := ⟨m.running, { f with ip := f.ip + 1 } :: rest, b, n, false, false⟩
      have guarded : e.Guarded (k.thread e.id) := by
        show (k.thread m.running).Guarded _ _ _ _
        rw [← running, show k.thread k.running = k.current from rfl, thread]
        exact ⟨0, _, _, _, _, calling.current.2.2.guard calling.current.2.1 guards, Or.inr ⟨frames, rfl, rfl⟩⟩
      have sane := calling.sane.alone raised.alone
      rcases unwindFrom_errand (k.locate fault) sane.bound sane.distinct guarded
        (fun other => absurd running.symm other) (by simp [e]) with pending | ⟨some', settles⟩ | lost
      · exact .begins pending
      · obtain rfl : n = 1 := by
          have : 1 ≤ n := some'
          omega
        exact .refused failed settles
      · exact .lost (Nat.le_of_lt_succ lost.2)

end Machine

namespace Activation

/-- The number of protected calls that end with the call that `A` makes in front of `ip`, as its thread has it. -/
inductive Protects (A : Activation) (ip : Nat) (t : Thread) : Nat → Prop where
  | frame {inner : List Frame} {g : Frame} (frames : t.frames = inner ++ g :: A.at' ip :: A.below) :
      Protects A ip t g.protections
  | waits (frames : t.frames = A.at' ip :: A.below) : Protects A ip t t.awaitingProtections

/-- With the next move the call at `ip` is over, and it gives `vs`. -/
inductive Ends (A : Activation) (ip : Nat) (m : Machine) : List Value → Prop where
  /-- The call gives its results at once, however many are wanted. -/
  | atOnce {a b : Nat} {vs : List Value} (there : A.At m ip) (next : m.next? = some (.call, a, b))
      (gives : ∀ want, (m.calling a).Outcome want (.values vs)
        (Exec.call (m.top (a + 1)) (m.spread a) want (m.calling a))) : Ends A ip m vs
  /-- A protected call fails in the very step. -/
  | refused {fault : Fault} {k : Machine} (there : A.At m ip) (step : Exec.step m = .error fault k) :
      Ends A ip m [.boolean false, (k.locate fault).toValue]
  /-- The frame that the call has entered returns. -/
  | returned {g : Frame} {a b : Nat} (running : m.running = A.id)
      (frames : m.current.frames = g :: A.at' (ip + 1) :: A.below) (next : m.next? = some (.ret, a, b)) :
      Ends A ip m (g.pays (m.spread a))
  /-- Control comes back to the thread that the call has blocked. -/
  | passed {vs : List Value} {r : Option (List Value)} {k : Machine} (away : m.running ≠ A.id)
      (frames : (m.thread A.id).frames = A.at' (ip + 1) :: A.below) (step : Exec.step m = .ok r k)
      (hands : m.Hands A.id vs) :
      Ends A ip m (List.replicate (m.thread A.id).awaitingProtections (Value.boolean true) ++ vs)
  /-- A protected call catches a fault. -/
  | caught {fault : Fault} {k : Machine} {n : Nat} (protects : A.Protects (ip + 1) (m.thread A.id) n)
      (step : Exec.step m = .error fault k) : Ends A ip m
        (List.replicate (n - 1) (Value.boolean true) ++ [Value.boolean false, (k.locate fault).toValue])

/-- The activation makes the call at `ip`, which gives `vs`, and goes on behind it. -/
inductive Calls (A : Activation) (ip : Nat) : Machine → Machine → List Value → Prop where
  | last {m m' : Machine} {vs : List Value} (within : A.Within m ip (ip + 1)) (away : ¬A.At m (ip + 1)) (firm : ¬m.Slips)
      (moves : m.Moves m') (there : A.At m' (ip + 1)) (ends : A.Ends ip m vs) : Calls A ip m m' vs
  | move {m m₁ m' : Machine} {vs : List Value} (within : A.Within m ip (ip + 1)) (away : ¬A.At m (ip + 1))
      (firm : ¬m.Slips) (moves : m.Moves m₁) (rest : Calls A ip m₁ m' vs) : Calls A ip m m' vs

variable {A : Activation} {m m₁ m' : Machine} {vs : List Value} {ip : Nat}

theorem Calls.crosses (h : A.Calls ip m m' vs) : A.Crosses ip (ip + 1) m m' := by
  induction h with
  | last within away firm moves there => exact .move within away firm moves (.here there)
  | move within away firm moves _ ih => exact .move within away firm moves ih

theorem Calls.away (h : A.Calls ip m m' vs) : ¬A.At m (ip + 1) := by
  cases h with
  | last _ away | move _ away => exact away

theorem Calls.within (h : A.Calls ip m m' vs) : A.Within m ip (ip + 1) := by
  cases h with
  | last within | move within => exact within

/-- The call of `A` at `ip` for `want` results, under `n` protected calls. -/
def errand (A : Activation) (ip want n : Nat) (resumes : Bool) : Machine.Errand :=
  ⟨A.id, A.at' (ip + 1) :: A.below, want, n, false, resumes⟩

section

variable {want n : Nat} {resumes : Bool}

/-- While the call is under way control is not with its caller. -/
theorem not_at_of_pending (pending : (A.errand ip want n resumes).Pending m) {j : Nat} : ¬A.At m j := by
  intro there
  rcases pending with inside | ⟨away, -⟩
  · have longer := Piled.length_lt inside
    rw [show (A.errand ip want n resumes).id = A.id from rfl, there.thread] at longer
    exact absurd longer (Nat.lt_irrefl _)
  · exact away there.running.symm

theorem at_of_settles {results : List Value} (settles : (A.errand ip want n resumes).Settles m results) :
    A.At m (ip + 1) := ⟨settles.running, settles.frames⟩

/-- Where an activation still is, its call has not been lost. -/
theorem not_lost {i j : Nat} (within : A.Within m i j) : ¬(m.thread A.id).frames.length ≤ A.below.length := by
  obtain ⟨inner, ip', -, -, frames⟩ := within
  rw [frames]
  simp only [List.length_append, List.length_cons]
  omega

/-- A frame on top of a caller is not where the caller itself is. -/
theorem deeper_ne {inner below : List Frame} {f g g' : Frame} : inner ++ g :: f :: below ≠ g' :: below := by
  intro same
  have length := congrArg List.length same
  simp only [List.length_append, List.length_cons] at length
  omega

/-- The frames of its thread tell how many protected calls end with a call. -/
theorem Protects.eq {k : Nat} (protects : A.Protects (ip + 1) (m.thread A.id) k)
    (pending : (A.errand ip want n resumes).Pending m) : k = n := by
  rcases pending with ⟨inner, g, frames, -, rfl, -⟩ | ⟨-, -, frames, -, layers⟩
  · have frames : (m.thread A.id).frames = inner ++ g :: A.at' (ip + 1) :: A.below := frames
    cases protects with
    | frame frames' =>
      rw [frames] at frames'
      have length := congrArg List.length frames'
      simp only [List.length_append, List.length_cons] at length
      obtain ⟨-, same⟩ := List.append_inj frames' (by omega)
      rw [(List.cons.inj same).1]
    | waits frames' => exact absurd (frames.symm.trans frames') deeper_ne
  · have frames : (m.thread A.id).frames = A.at' (ip + 1) :: A.below := frames
    cases protects with
    | frame frames' => exact absurd (frames'.symm.trans frames) deeper_ne
    | waits _ => exact layers

end

variable {a b : Nat}

/-- Where control comes back, the slots that the call was made for have what it gives. -/
theorem Ends.settles {n : Nat} {resumes : Bool} (ends : A.Ends ip m vs) (ordered : m.Ordered Thread.Active)
    (firm : ¬m.Slips) (pending : (A.errand ip b n resumes).Pending m) (moves : m.Moves m') (there : A.At m' (ip + 1)) :
    m'.topValues (slots b) = delivered b vs := by
  have alive : (A.errand ip b n resumes).base ≠ [] := List.cons_ne_nil _ _
  have unlost : ¬(A.errand ip b n resumes).Lost m' := fun lost =>
    not_lost (there.within (Nat.le_refl _) (Nat.le_refl _)) (Nat.le_of_lt_succ lost.2)
  have ended := (Machine.errand_move ordered firm (pending.lt alive) pending alive moves).resolve_left
    fun pending => not_at_of_pending pending there
  cases ends with
  | atOnce there _ _ | refused there _ => exact absurd there (not_at_of_pending pending)
  | @returned g a b' running frames next =>
    obtain ⟨op, a', b'', poises⟩ := ordered.poises frames
    cases next.symm.trans poises.instruction
    obtain ⟨r, k, done, -⟩ := ordered.returns poises
    cases ended with
    | @handed given results hands gives settles =>
      obtain ⟨inner, g', frames', -, protections, condition⟩ := pending.inside running.symm
      have frames' : m.current.frames = inner ++ g' :: A.at' (ip + 1) :: A.below := frames'
      rw [frames] at frames'
      have length := congrArg List.length frames'
      simp only [List.length_append, List.length_cons] at length
      obtain rfl : inner = [] := List.eq_nil_of_length_eq_zero (by omega)
      obtain ⟨rfl, -⟩ := List.cons.inj frames'
      have given := hands.spread ordered.sane running next
      cases gives with
      | returned _ =>
        have values := settles.values
        rw [given, ← protections, ← condition] at values
        exact values
      | passed other _ => exact absurd running other
    | caught _ step _ | lost step _ => cases done.symm.trans step
  | passed away frames step hands =>
    rcases pending with inside | ⟨-, -, -, -, layers⟩
    · have longer := Piled.length_lt inside
      rw [show (A.errand ip b n resumes).id = A.id from rfl, frames] at longer
      exact absurd longer (Nat.lt_irrefl _)
    cases ended with
    | handed hands' gives settles =>
      cases gives with
      | returned running => exact absurd running away
      | passed _ _ =>
        have values := settles.values
        rw [hands'.unique away hands, ← layers] at values
        exact values
    | caught _ step' _ | lost step' _ => cases step.symm.trans step'
  | @caught fault k n' protects step =>
    obtain rfl := protects.eq pending
    cases moves with
    | step step' => cases step.symm.trans step'
    | fault step' =>
      cases step.symm.trans step'
      obtain ⟨alone, guarded, pending'⟩ := Machine.fault_errand ordered firm step (pending.lt alive) pending
      have sane := ordered.sane.alone alone
      rcases Machine.unwindFrom_errand (k.locate fault) sane.bound sane.distinct guarded pending' alive with
        pending | ⟨-, settles⟩ | lost
      · exact absurd there (not_at_of_pending pending)
      · exact settles.values
      · exact absurd lost unlost

/-- What the end of a call in its own step leaves. -/
theorem Ends.opens (ends : A.Ends ip m vs) (ordered : m.Ordered Thread.Active) (firm : ¬m.Slips) (here : A.At m ip)
    (holds : A.frame.closure.unit.Holds ip .call a b) (moves : m.Moves m') (there : A.At m' (ip + 1)) :
    m'.topValues (slots b) = delivered b vs := by
  obtain ⟨op, a', b', poises⟩ := ordered.poises here.frames
  obtain ⟨rfl, rfl, rfl⟩ := holds.eq poises.holds
  obtain ⟨calling, alone, -⟩ := ordered.calling poises
  have inside (k : Machine) (same : (m.calling a).Alone k) : k.running < k.threads.size :=
    (calling.sane.alone same).running_lt
  have step := poises.step_call ordered.sane
  rw [Exec.bind_apply] at step
  have opens := ordered.opens firm poises moves
  have shorter : ¬(m'.thread m.running).frames.length ≤ A.below.length := by
    rw [here.running]
    exact not_lost (there.within (Nat.le_refl _) (Nat.le_refl _))
  cases ends with
  | atOnce _ next gives =>
    cases next.symm.trans poises.instruction
    have gives := gives b
    generalize called : Exec.call (m.top (a + 1)) (m.spread a) b (m.calling a) = result at gives step opens
    cases gives with
    | @values k _ alone' same =>
      have moved : m' = k.pushResults b vs := by
        cases moves with
        | step step' =>
          cases step.symm.trans step'
          rfl
        | fault step' => cases step.symm.trans step'
      rw [moved]
      exact Machine.topValues_pushResults (inside k alone') _ _
  | refused _ failed =>
    cases opens with
    | values called _ _ _ =>
      rw [called] at step
      cases failed.symm.trans step
    | @begins n resumes pending =>
      rw [here.running] at pending
      exact absurd there (not_at_of_pending (pending : (A.errand ip b n resumes).Pending m'))
    | refused failed' settled =>
      cases failed.symm.trans failed'
      exact settled.values
    | lost fewer => exact absurd fewer shorter
  | @returned g _ _ _ frames _ =>
    have same : [] ++ g :: A.at' (ip + 1) :: A.below = A.at' ip :: A.below := frames.symm.trans here.frames
    exact absurd same deeper_ne
  | passed away _ _ _ => exact absurd here.running away
  | caught protects _ =>
    cases protects with
    | frame frames => exact absurd (frames.symm.trans here.thread) deeper_ne
    | waits frames =>
      have := at_inj (List.cons.inj (here.thread.symm.trans frames)).1
      omega

/-- Behind a call the activation finds what the call gives, in as many slots as it has asked for. -/
theorem Calls.values (h : A.Calls ip m m' vs) (ordered : m.Ordered Thread.Active)
    (holds : A.frame.closure.unit.Holds ip .call a b)
    (start : A.At m ip ∨ ∃ n resumes, (A.errand ip b n resumes).Pending m) :
    m'.topValues (slots b) = delivered b vs := by
  induction h with
  | last within away firm moves there ends =>
    rcases start with here | ⟨n, resumes, pending⟩
    · exact ends.opens ordered firm here holds moves there
    · exact ends.settles ordered firm pending moves there
  | @move m m₁ m' vs within away firm moves rest ih =>
    refine ih (Machine.moves_ordered ordered firm moves) (Or.inr ?_)
    rcases start with here | ⟨n, resumes, pending⟩
    · obtain ⟨op, a', b', poises⟩ := ordered.poises here.frames
      obtain ⟨rfl, rfl, rfl⟩ := holds.eq poises.holds
      have opens := ordered.opens firm poises moves
      obtain ⟨calling, alone, frames⟩ := ordered.calling poises
      cases opens with
      | @values k vs called alone' same next =>
        refine absurd ⟨?_, ?_⟩ rest.away
        · rw [next, Machine.pushResults, Machine.running_pushResultsOn, alone'.running, alone.running, here.running]
        · rw [next, Machine.current_pushResults (calling.sane.alone alone').running_lt, same]
          exact frames
      | @begins n resumes pending =>
        rw [here.running] at pending
        exact ⟨n, resumes, pending⟩
      | refused _ settled => exact absurd ⟨settled.running.trans here.running, settled.frames⟩ rest.away
      | lost fewer =>
        rw [here.running] at fewer
        exact absurd fewer (not_lost rest.within)
    · have alive : (A.errand ip b n resumes).base ≠ [] := List.cons_ne_nil _ _
      rcases Machine.errand_move ordered firm (pending.lt alive) pending alive moves with pending | ended
      · exact ⟨n, resumes, pending⟩
      · cases ended with
        | handed _ _ settles | caught _ _ settles => exact absurd (at_of_settles settles) rest.away
        | lost _ lost => exact absurd (Nat.le_of_lt_succ lost.2) (not_lost rest.within)

end Activation

end ScriptEngine
