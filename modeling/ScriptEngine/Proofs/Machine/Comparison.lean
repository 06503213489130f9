import ScriptEngine.Proofs.Machine.Request
import ScriptEngine.Proofs.Machine.Settlement

/-!
# Comparisons come out as truth values

A comparison that no handler decides gives what its test says, in the same step. One that a handler decides
gives the truth value of the handler's first result, in the same step or much later, whichever kind of
function the handler is (`Reachable.comparison_judged`), but for one: a handler that is the yield itself,
with no protected call around it, leaves in the slot the first value that the coroutine is resumed with as
it is, be it a truth value or not.
-/

set_option linter.dupNamespace false

namespace ScriptEngine

/-- The test and the event of a comparison instruction. -/
def Opcode.comparison? : Opcode → Option ((Value → Value → Option Bool) × String)
  | less => some (Value.less?, "__lt")
  | lessEq => some (Value.lessEq?, "__le")
  | _ => none

theorem delivered_one (vs : List Value) : delivered 1 vs = [vs.headD .nil] := by
  cases vs with
  | nil => rfl
  | cons v vs => simp [delivered, Value.adjust]

namespace Machine

variable {m m' : Machine}

/-- The call comes to a yield with no protected call around it. -/
def yieldsBare (m : Machine) (callee : Value) (args : List Value) : Bool :=
  match m.callTarget callee args with
  | .ok (.core .yield, _) => true
  | _ => false

/-- What a comparison leaves in its slot for the results of its handler: their first as it is, if `raw`, or
its truth value. -/
def verdict (raw : Bool) (results : List Value) : Value :=
  if raw then results.headD .nil else .boolean (results.headD .nil).isTruthy

/-- The comparison that `m` has made, as a call that is under way. -/
def comparing (m : Machine) (n : Nat) (raw resumes : Bool) : Errand :=
  ⟨m.running, m.advance.current.frames, 1, n, !raw, resumes⟩

/-- The move from `m₁` to `m₂` has ended the comparison that `m` has made under `n` protected calls. -/
inductive Decided (m : Machine) (n : Nat) (raw : Bool) (m₁ m₂ : Machine) : Prop where
  | handed {vs : List Value} (hands : m₁.Hands m.running vs)
      (returned : m.Returned m₂ 1 1 [verdict raw (List.replicate n (Value.boolean true) ++ vs)]) :
      Decided m n raw m₁ m₂
  | caught {fault : Fault} {k : Machine} (some' : 1 ≤ n) (step : Exec.step m₁ = .error fault k)
      (returned : m.Returned m₂ 1 1 [.boolean (decide (1 < n))]) : Decided m n raw m₁ m₂
  | lost {fault : Fault} {k : Machine} (none' : n = 0) (step : Exec.step m₁ = .error fault k)
      (lost : (m₂.thread m.running).frames.length < m.advance.current.frames.length) :
      Decided m n raw m₁ m₂

/-- From `m'` on, the comparison that `m` has made is under way until some move decides it. -/
def Decides (m m' : Machine) (n : Nat) (raw resumes : Bool) : Prop :=
  ∀ m'', m'.Runs m'' → (m.comparing n raw resumes).Pending m'' ∨
    ∃ m₁ m₂, m'.Runs m₁ ∧ m₁.Moves m₂ ∧ m₂.Runs m'' ∧ m.Decided n raw m₁ m₂

/-- What becomes of a comparison when the call of its handler comes to a reply; `bare` says that the handler
is the yield with nothing around it. -/
inductive Judged (m : Machine) (bare : Bool) : Reply → Prop where
  | values {m' : Machine} {vs : List Value} (step : Exec.step m = .ok none m')
      (returned : m.Returned m' 1 1 [verdict false vs]) : Judged m bare (.values vs)
  | entered {m' : Machine} {n : Nat} {c : Closure} {args : List Value} {g : Frame} {resumes : Bool}
      (step : Exec.step m = .ok none m') (running : m'.running = m.running)
      (frames : m'.current.frames = g :: m.advance.current.frames) (runs : g.closure = c)
      (start : g.ip = 0) (decides : m.Decides m' n false resumes) : Judged m bare (.entered n c args)
  | blocked {m' : Machine} {n id : Nat} {vs : List Value} {resumes : Bool}
      (step : Exec.step m = .ok none m') (running : m'.running = id)
      (decides : m.Decides m' n bare resumes) : Judged m bare (.blocked n id vs)
  | raised {m' : Machine} {fault : Fault} (step : Exec.step m = .error fault m')
      (lost : ((m'.unwind (m'.locate fault)).2.thread m.running).frames.length <
        m.advance.current.frames.length) : Judged m bare (.raised 0 fault)
  | caught {m' : Machine} {fault : Fault} (step : Exec.step m = .error fault m')
      (returned : m.Returned (m'.unwind (m'.locate fault)).2 1 1 [.boolean false]) :
      Judged m bare (.raised 1 fault)

/-- How the comparison by `test` comes out that `m` is about to make. -/
inductive Compares (m : Machine) (test : Value → Value → Option Bool) : Prop where
  | tested {m' : Machine} {result : Bool} (known : test (m.top 2) (m.top 1) = some result)
      (step : Exec.step m = .ok none m') (returned : m.Returned m' 1 1 [.boolean result]) : Compares m test
  | refused {m' : Machine} {fault : Fault} (unknown : test (m.top 2) (m.top 1) = none)
      (missing : m.nextCall? = none) (step : Exec.step m = .error fault m') : Compares m test
  | handled {handler : Value} {reply : Reply} (unknown : test (m.top 2) (m.top 1) = none)
      (asked : m.nextCall? = some (handler, [m.top 2, m.top 1], 1))
      (out : (m.advance.drop 2).Outcome 1 reply
        (Exec.call handler [m.top 2, m.top 1] 1 (m.advance.drop 2)))
      (follows : reply.Follows m (m.finalTarget handler [m.top 2, m.top 1]))
      (judged : m.Judged (m.yieldsBare handler [m.top 2, m.top 1]) reply) : Compares m test

section Comparison

variable {f : Frame} {rest : List Frame} {op : Opcode} {a b n : Nat} {raw resumes : Bool}
  {test : Value → Value → Option Bool} {event : String}

/-- A comparison takes its two operands away and leaves one result. -/
theorem Poises.returned_comparison (poises : m.Poises f rest op a b)
    (which : op.comparison? = some (test, event)) (after : m'.Ordered Thread.Active) {vs : List Value}
    (settled : m'.Settled m.running m.advance.current.frames 1 vs) : m.Returned m' 1 1 vs := by
  cases op <;> cases which <;> exact poises.returned rfl rfl rfl rfl after settled

/-- One slot holds the first result. -/
theorem Returned.first {vs : List Value} {v : Value} (h : m.Returned m' 1 1 vs) (first : vs.headD .nil = v) :
    m.Returned m' 1 1 [v] :=
  { h with values := by rw [h.values, delivered_one, delivered_one, first]; rfl }

theorem headD_flags (n : Nat) (vs : List Value) :
    (List.replicate n (Value.boolean true) ++ vs).headD .nil = if n = 0 then vs.headD .nil else .boolean true := by
  cases n <;> rfl

/-- What the slot of a comparison holds when a move has handed `vs` to its thread. -/
theorem headD_gives {m₁ : Machine} {vs results : List Value}
    (gives : (m.comparing n raw resumes).Gives m₁ vs results) (right : n = 0 → raw = false → resumes = true) :
    results.headD .nil = verdict raw (List.replicate n (Value.boolean true) ++ vs) := by
  cases gives with
  | returned _ =>
    simp only [comparing, verdict, headD_flags]
    cases raw <;> by_cases none' : n = 0 <;> simp [none', Value.isTruthy]
  | passed _ flag =>
    simp only [comparing, verdict, headD_flags] at flag ⊢
    cases raw with
    | true => rfl
    | false =>
      by_cases none' : n = 0
      · have first := flag (right none' rfl)
        cases vs with
        | nil => cases first
        | cons v vs =>
          cases first
          simp [none', Value.isTruthy]
      · simp [none', Value.isTruthy]

/-- A comparison that is under way after the step that made it is decided as it is to be. -/
theorem decides_of_pending (poises : m.Poises f rest op a b) (which : op.comparison? = some (test, event))
    (after : m'.Ordered Thread.Active) (pending : (m.comparing n raw resumes).Pending m')
    (right : n = 0 → raw = false → resumes = true) : m.Decides m' n raw resumes := by
  have alive : (m.comparing n raw resumes).base ≠ [] := by simp [comparing, poises.thread]
  intro m'' run
  rcases errand_run after pending alive run with pending | ⟨m₁, m₂, before, moves, later, ordered, ended⟩
  · exact Or.inl pending
  · refine Or.inr ⟨m₁, m₂, before, moves, later, ?_⟩
    cases ended with
    | handed hands gives settles =>
      exact .handed hands ((poises.returned_comparison which ordered settles).first (headD_gives gives right))
    | @caught fault k some' failed settles =>
      refine .caught some' failed ((poises.returned_comparison which ordered settles).first ?_)
      have some' : 1 ≤ n := some'
      rw [Errand.refusal, headD_flags]
      by_cases single : n = 1
      · simp [comparing, single]
      · have several : n - 1 ≠ 0 := by omega
        have many : 1 < n := by omega
        simp [comparing, several, many]
    | lost failed lost => exact .lost lost.1 failed lost.2

/-- The step that makes a comparison. -/
theorem step_comparison (h : m.Ordered Thread.Active) (poises : m.Poises f rest op a b)
    (which : op.comparison? = some (test, event)) :
    Exec.step m = (do Exec.compare test event; pure none) m.advance ∧
      (m.advance.drop 2).Ordered (Thread.Calling 1) ∧ m.Alone (m.advance.drop 2) ∧
      (m.advance.drop 2).current.frames = m.advance.current.frames ∧
      (m.advance.drop 2).current.handlers = m.current.handlers := by
  have advanced := advance_ordered h
  have turns := Turns.drop advanced.sane 2
  have thread := turns.thread
  have moved : m.Alone m.advance := .modifyCurrent h.sane _
  refine ⟨?_, ?_, moved.trans h.sane turns.alone, by rw [thread], by rw [thread, poises.thread]⟩
  · cases op <;> cases which <;> exact poises.performs (by simp)
  · rw [poises.thread] at turns
    cases op <;> cases which <;> exact advanced.turns turns (poises.calls h.current.1 rfl rfl rfl)

/-- A comparison whose handler is over at once. -/
theorem judged_values (h : m.Ordered Thread.Active) (poises : m.Poises f rest op a b)
    (which : op.comparison? = some (test, event)) {k : Machine} (vs : List Value)
    (alone : (m.advance.drop 2).Alone k) (same : k.current = (m.advance.drop 2).current) :
    ∃ m', Exec.judge (m.advance.drop 2).running (rest.length + 1) (k.pushResults 1 vs) = .ok () m' ∧
      (Exec.step m = .ok none m' → m.Returned m' 1 1 [verdict false vs]) := by
  obtain ⟨-, calling, alone', frames, -⟩ := step_comparison h poises which
  have sane := calling.sane.alone alone
  have inside := sane.running_lt
  have running : (k.pushResults 1 vs).running = m.running := by
    rw [pushResults, running_pushResultsOn, alone.running, alone'.running]
  have pushed : (k.pushResults 1 vs).current = k.current.withCells k.store.cells.size 1 :=
    current_pushResults inside
  have few : ¬rest.length + 1 < (k.pushResults 1 vs).current.frames.length := by
    rw [pushed]
    simp [Thread.withCells, same, frames, poises.thread]
  have top : (k.pushResults 1 vs).top 1 = vs.headD .nil := by
    have values := topValues_pushResults inside 1 vs
    rw [delivered_one, topValues, pushed] at values
    rw [Machine.top, Thread.cell?, pushed]
    simpa [slots, Thread.withCells] using values
  refine ⟨((k.pushResults 1 vs).drop 1).push (.boolean (vs.headD .nil).isTruthy), ?_, fun step => ?_⟩
  · simp only [Exec.judge, Exec.bind_apply, Exec.get_apply, running, alone'.running, if_true, if_neg few,
      Exec.pop_apply, Exec.push_apply, top]
  · have after := step_ordered h step
    have inside' : ((k.pushResults 1 vs).drop 1).running < ((k.pushResults 1 vs).drop 1).threads.size := by
      simpa [drop, pushResults] using inside
    refine poises.returned_comparison which after ⟨?_, ?_, ?_⟩
    · exact running
    · rw [push_eq_pushResults, current_pushResults inside', current_drop (by simpa [pushResults] using inside),
        pushed, Thread.frames_withCells]
      show k.current.frames = _
      rw [same, frames]
    · rw [push_eq_pushResults]
      exact topValues_pushResults inside' 1 _

/-- What a comparison asks for. -/
theorem nextCall?_comparison (next : m.next? = some (op, a, b)) (which : op.comparison? = some (test, event)) :
    m.nextCall? = if (test (m.top 2) (m.top 1)).isSome then none
      else (m.handler? event (m.top 2) (m.top 1)).map (·, [m.top 2, m.top 1], 1) := by
  rw [nextCall?, next]
  cases op <;> cases which <;> rfl

/-- The step of a comparison that a handler decides. -/
theorem step_handled (h : m.Ordered Thread.Active) (poises : m.Poises f rest op a b)
    (which : op.comparison? = some (test, event)) (unknown : test (m.top 2) (m.top 1) = none)
    {handler : Value} (found : m.handler? event (m.top 2) (m.top 1) = some handler) :
    Exec.step m = (do
      Exec.call handler [m.top 2, m.top 1] 1
      Exec.judge m.running (rest.length + 1)
      pure none) (m.advance.drop 2) := by
  have inside : m.advance.running < m.advance.threads.size := (advance_ordered h).sane.running_lt
  have tops := top_advance h.sane.running_lt
  have judges := compare_of_handler (m := m.advance) inside (by rw [poises.thread])
    (show test (m.advance.top 2) (m.advance.top 1) = none by rw [tops, tops]; exact unknown)
    (show m.advance.handler? event (m.advance.top 2) (m.advance.top 1) = some handler by
      rw [tops, tops]; exact found)
  rw [tops, tops] at judges
  rw [(step_comparison h poises which).1]
  simp only [Exec.bind_apply, judges]
  cases Exec.call handler [m.top 2, m.top 1] 1 (m.advance.drop 2) <;> rfl

/-- A fault in a call with no protected call around it takes the caller away. -/
theorem unwind_lost {want : Nat} (sane : m.Sane) (calling : m.current.Calling want) (fault : Fault) :
    ((m.unwind fault).2.thread m.running).frames.length < m.current.frames.length := by
  obtain ⟨-, alive, pends⟩ := calling
  have guarded : m.current.Guarded false m.current.frames want 0 :=
    ⟨0, _, _, _, _, pends, Or.inr ⟨rfl, rfl, rfl⟩⟩
  have inside := sane.running_lt
  rw [unwind]
  cases handlers : m.current.handlers with
  | nil =>
    have dead : ((m.unwindFrom fault m.running m.waiting).2.thread m.running) = {} := by
      unfold unwindFrom
      rw [show (m.thread m.running).handlers = [] from handlers]
      have cleared : (m.modifyThread m.running fun _ => {}).thread m.running = {} :=
        thread_modifyThread_self inside
      have distinct := (List.nodup_cons.1 sane.distinct).1
      cases waiting : m.waiting with
      | nil => exact cleared
      | cons resumer rest => exact (thread_unwindFrom_ne fault (waiting ▸ distinct)).trans cleared
    rw [dead]
    exact List.length_pos_iff.2 alive
  | cons handler outer =>
    have caught : (m.unwindFrom fault m.running m.waiting).2 = m.catchWith handler outer fault := by
      unfold unwindFrom
      rw [show (m.thread m.running).handlers = handler :: outer from handlers]
    have frames : ((m.catchWith handler outer fault).thread m.running).frames =
        (m.current.restore handler).frames := by
      have current := current_catchWith inside handler outer fault
      rw [Machine.current, running_catchWith] at current
      rw [current]
      rfl
    rw [caught, frames]
    rcases guarded.caught alive handlers with above | ⟨-, none', -⟩ | ⟨-, short⟩
    · have := above.length_lt
      simp only [Thread.restore, List.length_drop] at this
      omega
    · omega
    · exact short

/-- Who hands control over unprotected, and not by a yield itself, resumes a coroutine. -/
theorem waiting_of_handover {callee : Value} {args : List Value} {id : Nat} {rest : List Nat} {vs : List Value}
    (handed : m.handover? (m.finalTarget callee args) = some (id, rest, vs))
    (single : m.layers callee args = 0) (other : m.yieldsBare callee args = false) :
    rest = m.running :: m.waiting := by
  unfold layers at single
  unfold yieldsBare at other
  unfold finalTarget at handed
  cases target : m.callTarget callee args with
  | error fault =>
    rw [target] at handed
    cases handed
  | ok found =>
    obtain ⟨v, given⟩ := found
    simp only [target] at single other handed
    by_cases itself : v = .core .pcall
    · subst itself
      have pos : 0 < protectedLayers given := by unfold protectedLayers; split <;> omega
      simp only at single
      omega
    · have direct : m.handover? (.ok (v, given)) = some (id, rest, vs) := by
        split at handed
        · rename_i same
          cases same
          exact absurd rfl itself
        · exact handed
      unfold handover? at direct
      split at direct
      · split at direct
        · cases direct
        · cases direct
          rfl
      · rename_i same
        cases same
        cases other
      · cases direct

/-- What becomes of a comparison that a handler decides. -/
theorem judged_of_handler (h : m.Ordered Thread.Active) (firm : ¬m.Slips) (poises : m.Poises f rest op a b)
    (which : op.comparison? = some (test, event)) (unknown : test (m.top 2) (m.top 1) = none)
    {handler : Value} (found : m.handler? event (m.top 2) (m.top 1) = some handler) :
    ∃ reply, (m.advance.drop 2).Outcome 1 reply
        (Exec.call handler [m.top 2, m.top 1] 1 (m.advance.drop 2)) ∧
      reply.Follows m (m.finalTarget handler [m.top 2, m.top 1]) ∧
      m.Judged (m.yieldsBare handler [m.top 2, m.top 1]) reply := by
  obtain ⟨-, calling, alone, frames, handlers⟩ := step_comparison h poises which
  have step := step_handled h poises which unknown found
  have sane := calling.sane
  have alive : (m.advance.drop 2).current.frames ≠ [] := by rw [frames, poises.thread]; simp
  obtain ⟨reply, out, -, follows⟩ := Exec.call_outcome sane handler [m.top 2, m.top 1] 1
  have conducts := Exec.call_conducts sane.rooted alive handler [m.top 2, m.top 1] 1
  have after := calling.call handler [m.top 2, m.top 1]
  have target : (m.advance.drop 2).finalTarget handler [m.top 2, m.top 1] =
      m.finalTarget handler [m.top 2, m.top 1] := 
        finalTarget_congr (show (m.advance.drop 2).store = m.store from rfl) rfl _ _
  have follows' : reply.Follows m (m.finalTarget handler [m.top 2, m.top 1]) := by
    rw [← target]
    exact follows
  refine ⟨reply, out, follows', ?_⟩
  simp only [Exec.bind_apply] at step
  generalize Exec.call handler [m.top 2, m.top 1] 1 (m.advance.drop 2) = r at out step conducts after
  cases out with
  | @values k vs alone' same =>
    obtain ⟨m', judged, returned⟩ := judged_values h poises which vs alone' same
    rw [show (m.advance.drop 2).running = m.running from rfl] at judged
    simp only [judged, Exec.pure_apply] at step
    exact .values step (returned step)
  | @entered k n c args entered =>
    obtain ⟨cell, hs, -, -, thread⟩ := entered.thread
    have running : k.running = m.running := entered.alone.running
    have top : ∃ g, k.current.frames = g :: m.advance.current.frames ∧ g.closure = c ∧ g.ip = 0 ∧
        g.want = 1 ∧ g.protections = n := by
      rw [thread, ← frames]
      exact ⟨_, rfl, rfl, rfl, rfl, rfl⟩
    obtain ⟨g, frames', runs, start, wants, layers⟩ := top
    have more : rest.length + 1 < k.current.frames.length := by simp [frames', poises.thread]
    simp only [Exec.judge, Exec.bind_apply, Exec.get_apply, running, if_true, if_pos more, Exec.set_apply,
      Exec.pure_apply] at step
    have marked : (k.modifyCurrent (·.modifyFrame ({ · with isCondition := true }))).current.frames =
        { g with isCondition := true } :: m.advance.current.frames := by
      rw [current_modifyCurrent after.sane.running_lt]
      simp [Thread.modifyFrame, frames']
    have right : n = 0 → false = false → true = true := fun _ _ => rfl
    refine .entered step running marked runs start
      (decides_of_pending poises which (step_ordered h step) (Or.inl ?_) right)
    refine ⟨[], { g with isCondition := true }, ?_, wants, layers, rfl⟩
    rw [current, running_modifyCurrent, running] at marked
    exact marked
  | @blocked k n id vs switched =>
    have other : k.running ≠ m.running := switched.switch.ne sane.distinct
    obtain ⟨hs, -, caller⟩ := switched.caller
    have caller : k.thread m.running = _ := caller
    generalize handed : (m.advance.drop 2).handover?
      ((m.advance.drop 2).finalTarget handler [m.top 2, m.top 1]) = taker at conducts
    cases conducts with
    | stays apart => exact absurd apart.running other
    | @hands _ id' rest' vs' switched' waiting =>
      obtain ⟨hs', -, caller'⟩ := switched'.caller
      have caller' : k.thread m.running = _ := caller'
      have single : (m.advance.drop 2).layers handler [m.top 2, m.top 1] = n := by
        have same := congrArg Thread.awaitingProtections (caller'.symm.trans caller)
        simp only at same
        omega
      simp only [Exec.judge, Exec.bind_apply, Exec.get_apply, if_neg other, Exec.pure_apply] at step
      obtain ⟨resumes, waits⟩ : ∃ resumes : Bool, m.running ∈ k.waiting ↔ resumes = true :=
        ⟨decide (m.running ∈ k.waiting), decide_eq_true_iff.symm⟩
      refine .blocked step switched.running
        (decides_of_pending poises which after (Or.inr ⟨Ne.symm other, waits, ?_⟩) ?_)
      · refine ⟨?_, ?_, ?_⟩ <;> simp only [comparing, caller]
        · exact frames
        · rw [calling.current.1, Nat.zero_add]
      · intro none' bare
        have rests := waiting_of_handover handed (single.trans none') bare
        refine waits.1 ?_
        rw [waiting, rests]
        exact List.mem_cons_self
  | @raised k n fault raised =>
    have running : k.running = m.running := raised.alone.running
    simp only at step
    have few : n ≤ 1 := by
      apply Classical.byContradiction
      intro many
      have more := (Outcome.raised raised : Outcome _ 1 _ (.error fault k)).handlers_of_error
      refine firm ⟨fault, k, step, ?_⟩
      rw [more, handlers]
      simp only [Reply.layers]
      omega
    obtain rfl | rfl : n = 0 ∨ n = 1 := by omega
    · obtain ⟨hs, none', -, -, thread⟩ := raised.thread
      have same : k.current = (m.advance.drop 2).current := by
        rw [thread, List.eq_nil_of_length_eq_zero none']
        generalize (m.advance.drop 2).current = t
        rfl
      have lost := unwind_lost (sane.alone raised.alone) (by rw [same]; exact calling.current)
        (k.locate fault)
      rw [same, frames, running] at lost
      exact .raised step lost
    · obtain ⟨running', frames', -, values⟩ := unwind_raised sane raised (k.locate fault)
      have ordered := unwind_ordered (error_ordered h firm step) (k.locate fault)
      exact .caught step ((poises.returned_comparison which ordered
        ⟨running', frames'.trans frames, values rfl⟩).first rfl)

/-- A comparison comes out as its test says, or as the truth value of the first result of its handler, unless
the handler is the yield itself with no protected call around it: then its slot holds the value that the
coroutine is resumed with. This is so in every run in which no fault slips. -/
theorem Reachable.comparison_judged (reach : m.Reachable Slips) (firm : ¬m.Slips)
    (next : m.next? = some (op, a, b)) (which : op.comparison? = some (test, event)) : m.Compares test := by
  have h := reach.ordered fun _ _ slips => slips
  obtain ⟨f, rest, frames⟩ : ∃ f rest, m.current.frames = f :: rest := by
    cases frames : m.current.frames with
    | nil => simp [next?, frames] at next
    | cons f rest => exact ⟨f, rest, rfl⟩
  obtain ⟨op', a', b', poises⟩ := h.poises frames
  cases poises.instruction.symm.trans next
  obtain ⟨step, calling, alone, remain, -⟩ := step_comparison h poises which
  have asks := nextCall?_comparison next which
  have inside : m.advance.running < m.advance.threads.size := (advance_ordered h).sane.running_lt
  have tops := top_advance h.sane.running_lt
  cases known : test (m.top 2) (m.top 1) with
  | some result =>
    have tested := compare_of_test (m := m.advance) inside
      (show test (m.advance.top 2) (m.advance.top 1) = some result by rw [tops, tops]; exact known) event
    simp only [Exec.bind_apply, tested, Exec.pure_apply] at step
    have inside' := calling.sane.running_lt
    have settled : ((m.advance.drop 2).pushResults 1 [.boolean result]).Settled m.running
        m.advance.current.frames 1 [.boolean result] := by
      refine ⟨?_, ?_, topValues_pushResults inside' 1 _⟩
      · rw [pushResults, running_pushResultsOn, alone.running]
      · rw [current_pushResults inside', Thread.frames_withCells, remain]
    exact .tested known step (poises.returned_comparison which (step_ordered h step) settled)
  | none =>
    have asks : m.nextCall? = (m.handler? event (m.top 2) (m.top 1)).map (·, [m.top 2, m.top 1], 1) := by
      rw [asks, known]
      rfl
    cases found : m.handler? event (m.top 2) (m.top 1) with
    | none =>
      obtain ⟨fault, refused⟩ := compare_refused (m := m.advance) inside
        (show test (m.advance.top 2) (m.advance.top 1) = none by rw [tops, tops]; exact known)
        (show m.advance.handler? event (m.advance.top 2) (m.advance.top 1) = none by
          rw [tops, tops]; exact found)
      simp only [Exec.bind_apply, refused] at step
      exact .refused known (by rw [asks, found]; rfl) step
    | some handler =>
      obtain ⟨reply, out, follows, judged⟩ := judged_of_handler h firm poises which known found
      exact .handled known (by rw [asks, found]; rfl) out follows judged

end Comparison

/-- A chunk that compares two strings. -/
theorem Reachable.comparison_judged_strings : ∃ m : Machine, m.Reachable Slips ∧ ¬m.Slips ∧
    m.next? = some (.less, 0, 0) ∧ m.top 2 = .string "a" ∧ m.top 1 = .string "b" ∧
    m.Compares Value.less? := by
  obtain ⟨u, compiled, code, lesser, greater⟩ : ∃ u, Compiler.compileSource "return p < s" "test" = .ok u ∧
      u.code = #[Instruction.make .getGlobal 0 0, .make .getGlobal 1 0, .make .less 0 0, .make .ret 1 0,
        .make .ret 0 0] ∧
      u.constants[0]? = some (Value.string "p") ∧ u.constants[1]? = some (Value.string "s") :=
    Compiler.compileSource_of_any (by decide +kernel)
  have first : u.code[0]? = some (Instruction.make .getGlobal 0 0) := by simp [code]
  have second : u.code[1]? = some (Instruction.make .getGlobal 1 0) := by simp [code]
  have third : u.code[2]? = some (Instruction.make .less 0 0) := by simp [code]
  obtain ⟨m, reach, running, -, threads, cells, globals, -⟩ := (((Reachable.start {}).setGlobal "p"
    (.string "a")).setGlobal "s" (.string "b")).launch (((Fresh.machine (by decide)).setGlobal _ _).setGlobal
    _ _) compiled []
  have left : m.global "p" = .string "a" := by
    rw [global, globals, ← global, global_setGlobal_ne _ (by decide), global_setGlobal_self _ _ rfl]
  have right : m.global "s" = .string "b" := by
    rw [global, globals, ← global, global_setGlobal_self _ _ rfl]
  obtain ⟨m₁, step₁, firm₁, running₁, threads₁, cells₁, globals₁, -⟩ := step_getGlobal running threads
    cells first (Instruction.opcode?_make ..) lesser left
  obtain ⟨m₂, step₂, firm₂, running₂, threads₂, cells₂, -⟩ := step_getGlobal running₁ threads₁
    cells₁ second (Instruction.opcode?_make ..) greater (by rw [global, globals₁, ← global, right])
  have reach₂ := (reach.step firm₁ step₁).step firm₂ step₂
  have current : m₂.current = ⟨#[0, 1, 2], #[], [⟨⟨u, #[]⟩, 2, 0, 0, 0, 0, false⟩], [], 0, 0⟩ := by
    rw [Machine.current, thread, threads₂, running₂]
    rfl
  have next : m₂.next? = some (.less, 0, 0) := next?_ofChunk running₂ threads₂ third
  have tops : m₂.top 2 = .string "a" ∧ m₂.top 1 = .string "b" := by
    simp [top, current, Thread.cell?, Store.cell, cells₂]
  -- nothing is called, so nothing slips
  have firm₂ : ¬m₂.Slips := fun slips => by
    obtain ⟨callee, args, want, rest, asked, -⟩ := slips.doubles (reach₂.ordered fun _ _ slips => slips)
    rw [nextCall?_comparison next rfl, tops.1, tops.2] at asked
    cases asked
  exact ⟨m₂, reach₂, firm₂, next, tops.1, tops.2, reach₂.comparison_judged firm₂ next rfl⟩

end Machine

end ScriptEngine
