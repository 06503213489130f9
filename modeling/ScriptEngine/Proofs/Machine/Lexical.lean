import ScriptEngine.Proofs.Machine.Binding
import ScriptEngine.Proofs.Machine.Discretion

/-!
# Locals keep their cells

Whatever happens to a machine, it carries the cells of locals along (`Machine.Carries`): frames go on minding the
charts of their units, and a slot that has been there does not become temporary. For a thread this is said by
`Thread.Carries`, with a rule for each of the things that can come to it, and by `Thread.Salvages` while a fault is
under way. Steps and unwinding are put together from these.
-/

set_option linter.dupNamespace false

namespace ScriptEngine

namespace Thread

variable {t t' t'' : Thread} {f g : Frame} {rest : List Frame}

/-- All frames mind the charts of their units. -/
def Minded (t : Thread) : Prop := ScriptEngine.Minded t.stack t.captures t.frames t.stack.size t.captures.size

/-- Slot `i` is none of a local. -/
def Temporary (t : Thread) (i : Nat) : Prop := ScriptEngine.Temporary t.frames t.stack.size i

/-- From `t` to `t'` the frames have gone on minding their charts, and no slot has become temporary. -/
structure Carries (t t' : Thread) : Prop where
  minded : t.Minded → t'.Minded
  temporary : t.Minded → ∀ i, i < t.stack.size → t'.Temporary i → t.Temporary i

/-- From `t` to `t'` something has come on top, or a call has entered a frame. -/
inductive Answered (t : Thread) : Thread → Prop where
  | more {t' : Thread} (frames : t'.frames = t.frames) (captures : t'.captures = t.captures)
      (le : t.stack.size ≤ t'.stack.size) (old : ∀ i, i < t.stack.size → t'.stack[i]? = t.stack[i]?) :
      Answered t t'
  | entered {t' : Thread} (f g : Frame) (frames : t'.frames = g :: t.frames) (alike : Alike f g)
      (start : f.ip = 0 ∧ f.base = t.stack.size ∧ f.captureBase = t.captures.size)
      (captures : t'.captures = t.captures ++ f.closure.upvalues)
      (le : t.stack.size ≤ t'.stack.size) (old : ∀ i, i < t.stack.size → t'.stack[i]? = t.stack[i]?) :
      Answered t t'

/-- From `t` a fault has led to `t'`: whichever handler is the innermost, what it restores is carried along. -/
def Salvages (t t' : Thread) : Prop :=
  ∀ handler outer, t'.handlers = handler :: outer → t.Minded →
    handler.stack ≤ t'.stack.size ∧ handler.captures ≤ t'.captures.size ∧
    ScriptEngine.Minded t'.stack t'.captures (t'.frames.drop (t'.frames.length - handler.frames)) handler.stack
      handler.captures ∧
    ∀ i, i < t.stack.size →
      ScriptEngine.Temporary (t'.frames.drop (t'.frames.length - handler.frames)) handler.stack i → t.Temporary i

theorem Carries.refl (t : Thread) : Carries t t := ⟨id, fun _ _ _ => id⟩

theorem Carries.dies (t : Thread) : Carries t {} := ⟨fun _ => trivial, fun _ _ _ => False.elim⟩

theorem Answered.carries (h : Answered t t') : Carries t t' := by
  cases h with
  | more frames captures le old =>
    refine ⟨fun minded => ?_, fun _ i low temporary => ?_⟩
    · rw [Minded, frames, captures]
      exact minded.mono old (fun _ _ => rfl) le (Nat.le_refl _)
    · rw [Temporary, frames] at temporary
      exact temporary.lower low
  | entered f g frames alike start captures le old =>
    obtain ⟨ip, base, captureBase⟩ := start
    refine ⟨fun minded => ?_, fun _ i low temporary => ?_⟩
    · rw [Minded, frames, captures]
      refine (minded.enter f.closure f.want f.protections old le).alike ?_
      obtain ⟨closure, ip', base', captureBase'⟩ := alike
      exact ⟨closure, ip'.trans ip, base'.trans base, captureBase'.trans captureBase⟩
    · rw [Temporary, frames] at temporary
      have below := (temporary.alike alike).below (base ▸ low)
      rwa [base] at below

theorem Answered.refl (t : Thread) : Answered t t := .more rfl rfl (Nat.le_refl _) fun _ _ => rfl

theorem Answered.withCells (cell count : Nat) : Answered t (t.withCells cell count) :=
  .more rfl rfl (by simp [Thread.withCells]) fun i low => by simp [Thread.withCells, Array.getElem?_append_left low]

theorem Answered.receive (cell : Nat) : Answered t (t.receive cell) :=
  .more rfl rfl (by simp [Thread.receive, Thread.withCells]) fun i low => by
    simp [Thread.receive, Thread.withCells, Array.getElem?_append_left low]

/-- A coroutine that has just been made. -/
theorem Answered.ofClosure (c : Closure) : Answered {} (Thread.ofClosure c) :=
  .entered { closure := c, ip := 0, base := 0, captureBase := 0, want := 0 } _ rfl (.refl _) ⟨rfl, rfl, rfl⟩
    (by simp [Thread.ofClosure]) (Nat.le_refl _) fun _ _ => rfl

/-- A frame is left. -/
theorem Carries.leave (frames : t.frames = f :: rest) {ip : Nat} :
    Carries t (Frame.leave { f with ip } rest t) := by
  have limits (minded : t.Minded) : (t.stack.shrink f.base).size = f.base ∧
      (t.captures.shrink f.captureBase).size = f.captureBase := by
    rw [Minded, frames] at minded
    obtain ⟨base, captureBase, -⟩ := minded
    simp only [Array.size_shrink]
    omega
  refine ⟨fun minded => ?_, fun minded i low temporary => ?_⟩
  · obtain ⟨base, captureBase⟩ := limits minded
    rw [Minded, frames] at minded
    obtain ⟨-, -, -, below⟩ := minded
    have inside (xs : Array Nat) (n i : Nat) (low : i < n) : (xs.shrink n)[i]? = xs[i]? := by
      simp only [Array.shrink_eq_take, Array.getElem?_extract]
      split
      · rw [Nat.zero_add]
      · rw [Array.getElem?_eq_none (by omega)]
    exact below.mono (inside _ _) (inside _ _) (by simp only [Frame.leave]; omega) (by simp only [Frame.leave]; omega)
  · have base := (limits minded).1
    rw [Temporary, frames]
    simp only [Temporary, Frame.leave, base] at temporary
    exact Or.inr temporary

/-- A frame whose instruction leads to `ip`. -/
theorem Carries.advance {op : Opcode} {a b ip : Nat} {stack captures : Array Nat} {frames : List Frame}
    (same : t.frames = f :: rest) (holds : f.closure.unit.Holds f.ip op a b)
    (rests : f.Rests t.stack.size t.captures.size) (next : ip ∈ Verifier.successors op a f.ip)
    (touched : f.base + op.touched a b ≤ t.stack.size)
    (old : ∀ i, i + op.touched a b < t.stack.size → stack[i]? = t.stack[i]?)
    (whole : op = .closeVars → stack = t.stack)
    (low : t.stack.size ≤ stack.size + op.touched a b)
    (high : (stack.size : Int) ≤ t.stack.size + Instruction.stackEffect op a b)
    (list : captures = op.closing a t.stack t.captures)
    (closed : (captures.size : Int) = t.captures.size + Instruction.closedEffect op a)
    (room : f.captureBase + f.closure.upvalues.size ≤ captures.size) (moved : frames = { f with ip } :: rest) :
    Carries t { t with stack, captures, frames } := by
  subst list moved
  refine ⟨fun minded => ?_, fun minded i inside temporary => ?_⟩
  · rw [Minded, same] at minded
    exact minded.advance holds rests next touched old
      (fun closes => by rw [whole closes]; exact ⟨Nat.le_refl _, fun _ _ => rfl⟩) low closed room
  · rw [Temporary, same]
    exact ScriptEngine.Temporary.retreat holds rests next high inside temporary

/-- A handler restores what it noted. -/
theorem Salvages.carries (h : Salvages t t') {handler : Handler} {outer : List Handler}
    (handlers : t'.handlers = handler :: outer) (hs : List Handler) :
    Carries t { t'.restore handler with handlers := hs, awaitingProtections := 0 } := by
  have limits (minded : t.Minded) : (t'.stack.shrink handler.stack).size = handler.stack ∧
      (t'.captures.shrink handler.captures).size = handler.captures := by
    obtain ⟨stack, captures, -⟩ := h handler outer handlers minded
    simp only [Array.size_shrink]
    omega
  refine ⟨fun minded => ?_, fun minded i low temporary => ?_⟩
  · obtain ⟨stack, captures⟩ := limits minded
    obtain ⟨-, -, kept, -⟩ := h handler outer handlers minded
    have inside (xs : Array Nat) (n i : Nat) (low : i < n) : (xs.shrink n)[i]? = xs[i]? := by
      simp only [Array.shrink_eq_take, Array.getElem?_extract]
      split
      · rw [Nat.zero_add]
      · rw [Array.getElem?_eq_none (by omega)]
    exact kept.mono (inside _ _) (inside _ _) (by simp only [restore]; omega) (by simp only [restore]; omega)
  · obtain ⟨-, -, -, back⟩ := h handler outer handlers minded
    simp only [Temporary, restore, (limits minded).1] at temporary
    exact back i low temporary

/-- The frames wait for what would come, and the fault goes to one of them. -/
theorem Carries.salvages (h : Carries t t') {hs : List Handler} {want n : Nat}
    (pends : Pends t'.frames hs t'.stack.size t'.captures.size want n) : Salvages t { t' with handlers := hs } := by
  intro handler outer handlers minded
  obtain rfl : hs = handler :: outer := handlers
  obtain ⟨-, -, -, -, stack, captures, -⟩ := pends.caught
  exact ⟨stack, captures, (h.minded minded).caught pends, fun i low temporary =>
    h.temporary minded i low (temporary.caught pends)⟩

/-- The innermost frame has raised a fault. -/
theorem Salvages.raised (frames : t.frames = f :: rest) (upright : Upright f rest t.handlers t.stack.size t.captures.size)
    {size ip : Nat} (low : f.base ≤ size) (high : size ≤ t.stack.size) :
    Salvages t { t with stack := t.stack.take size, frames := { f with ip } :: rest } := by
  intro handler outer handlers minded
  have pends := upright.below
  rw [show t.handlers = handler :: outer from handlers] at pends
  obtain ⟨g, rest', suffix, length, stack, captures, -⟩ := pends.caught
  have few : handler.frames ≤ rest.length := by
    have := congrArg List.length suffix
    rw [List.length_drop, length] at this
    omega
  have inner : ({ f with ip } :: rest).drop (({ f with ip } :: rest).length - handler.frames) =
      rest.drop (rest.length - handler.frames) := by
    rw [List.length_cons, Nat.succ_sub few, List.drop_succ_cons]
  rw [Minded, frames] at minded
  obtain ⟨base, captureBase, -, below⟩ := minded
  simp only
  rw [inner]
  refine ⟨?_, by omega, (below.caught pends).mono (fun i inside => ?_) (fun _ _ => rfl) (Nat.le_refl _) (Nat.le_refl _),
    fun i _ temporary => ?_⟩
  · simp only [Array.size_extract]
    omega
  · rw [Array.getElem?_extract, if_pos (by omega), Nat.zero_add]
  · rw [Temporary, frames]
    exact Or.inr (temporary.caught pends)

end Thread

namespace Machine

variable {m m' m'' : Machine} {d : Deeds}

/-- From `m` to `m'` all frames have gone on minding their charts, and no slot has become temporary and kept its
cell. -/
structure Carries (d : Deeds) (m m' : Machine) : Prop where
  draws : Draws d m m'
  minded : ∀ id, (m.thread id).Minded → (m'.thread id).Minded
  temporary : ∀ id i x, (m.thread id).Minded → m.Slot id i x → m'.Slot id i x → (m'.thread id).Temporary i →
    (m.thread id).Temporary i

theorem Slot.lt {id i x : Nat} (slot : m.Slot id i x) : i < (m.thread id).stack.size :=
  (Array.getElem?_eq_some_iff.1 slot).1

theorem thread_of_le {id : Nat} (outside : m.threads.size ≤ id) : m.thread id = {} := by
  simp [thread, Array.getElem?_eq_none outside]

/-- Another thread than the running one is as it was, or has just been made. -/
theorem Alone.elsewhere (alone : m.Alone m') {id : Nat} (away : id ≠ m.running) :
    (m.thread id).Answered (m'.thread id) := by
  by_cases old : id < m.threads.size
  · rw [alone.others id old away]
    exact .refl _
  rw [thread_of_le (Nat.le_of_not_lt old)]
  by_cases made : id < m'.threads.size
  · obtain ⟨c, -, made⟩ := alone.made id (Nat.le_of_not_lt old) made
    rw [made]
    exact .ofClosure c
  · rw [thread_of_le (Nat.le_of_not_lt made)]
    exact .refl _

namespace Carries

theorem of_threads (draws : Draws d m m') (threads : ∀ id, (m.thread id).Carries (m'.thread id)) : Carries d m m' :=
  ⟨draws, fun id => (threads id).minded, fun id i _ minded slot _ => (threads id).temporary minded i slot.lt⟩

/-- A cell that is there before and after has been there all the time. -/
theorem trans (separate : m.Separate) (first : Carries d m m') (second : Carries d m' m'') : Carries d m m'' := by
  refine ⟨first.draws.trans second.draws, fun _ minded => second.minded _ (first.minded _ minded),
    fun id i x minded slot slot' temporary => ?_⟩
  have between : m'.Slot id i x := by
    rcases second.draws.slots id i x slot' with between | new
    · exact between
    · have := separate.slots id i x slot
      have := first.draws.cells
      omega
  exact first.temporary id i x minded slot between
    (second.temporary id i x (first.minded id minded) between slot' temporary)

theorem refl (separate : m.Separate) : Carries d m m := .of_threads (separate.refl d) fun _ => .refl _

/-- Another thread runs. -/
theorem withControl (separate : m.Separate) (running : Nat) (waiting : List Nat) :
    Carries d m { m with running, waiting } :=
  .of_threads (separate.withControl running waiting) fun _ => .refl _

/-- Nothing but the running thread has changed. -/
theorem of_alone (draws : Draws d m m') (alone : m.Alone m') (current : m.current.Carries m'.current) :
    Carries d m m' := by
  refine .of_threads draws fun id => ?_
  by_cases itself : id = m.running
  · subst itself
    rw [show m'.thread m.running = m'.current by rw [← alone.running]; rfl]
    exact current
  · exact (alone.elsewhere itself).carries

theorem pushResultsOn (separate : m.Separate) {id : Nat} (inside : id < m.threads.size) (want : Nat) (vs : List Value) :
    Carries d m (m.pushResultsOn id want vs) := by
  refine .of_threads (separate.pushResultsOn id want vs) fun k => ?_
  by_cases itself : k = id
  · subst itself
    rw [thread_pushResultsOn_self inside]
    exact (Thread.Answered.withCells _ _).carries
  · rw [thread_pushResultsOn_ne itself]
    exact .refl _

theorem deliver (separate : m.Separate) {id : Nat} (inside : id < m.threads.size) (vs : List Value) :
    Carries d m (m.deliver id vs) := by
  refine .of_threads (separate.deliver id vs) fun k => ?_
  by_cases itself : k = id
  · subst itself
    rw [thread_deliver_self inside]
    exact (Thread.Answered.receive _).carries
  · rw [thread_deliver_ne itself]
    exact .refl _

theorem modifyThread {id : Nat} {f : Thread → Thread} (draws : Draws d m (m.modifyThread id f))
    (thread : (m.thread id).Carries (f (m.thread id))) : Carries d m (m.modifyThread id f) := by
  refine .of_threads draws fun k => ?_
  by_cases itself : k = id
  · subst itself
    by_cases inside : k < m.threads.size
    · rw [thread_modifyThread_self inside]
      exact thread
    · rw [thread_of_le (Nat.le_of_not_lt inside), thread_of_le (by simpa using inside)]
      exact .refl _
  · rw [thread_modifyThread_ne itself]
    exact .refl _

end Carries

/-! ## Calls -/

theorem Alone.answered (alone : m.Alone m') (current : m.current.Answered m'.current) (id : Nat) :
    (m.thread id).Answered (m'.thread id) := by
  by_cases itself : id = m.running
  · subst itself
    rw [show m'.thread m.running = m'.current by rw [← alone.running]; rfl]
    exact current
  · exact alone.elsewhere itself

/-- A call that goes on puts something on top of a thread or enters a frame. -/
theorem Outcome.answered {want : Nat} {reply : Reply} {u : Unit} (sane : m.Sane)
    (out : m.Outcome want reply (.ok u m')) (id : Nat) : (m.thread id).Answered (m'.thread id) := by
  cases out with
  | @values m₁ vs alone same =>
    have sane' := sane.alone alone
    refine Alone.answered (alone.trans sane (.pushResults sane' want vs)) ?_ id
    rw [current_pushResults sane'.running_lt, same]
    exact .withCells _ _
  | entered entered =>
    obtain ⟨cell, hs, -, -, thread⟩ := entered.thread
    refine entered.alone.answered ?_ id
    rw [thread]
    exact .entered _ _ rfl (.refl _) ⟨rfl, rfl, rfl⟩ rfl (by simp [Thread.entered]) fun i low => by
      simp [Thread.entered, Array.getElem?_push_lt, low]
  | blocked switched =>
    by_cases target : id = m'.running
    · rw [target, switched.target]
      exact .receive _
    by_cases caller : id = m.running
    · obtain ⟨hs, -, thread⟩ := switched.caller
      rw [caller, thread]
      exact .more rfl rfl (Nat.le_refl _) fun _ _ => rfl
    · rw [switched.others id caller target]
      exact .refl _

/-- Judging a comparison changes the running thread only. -/
theorem judge_thread_ne {id n k : Nat} (other : k ≠ id) (judged : Exec.judge id n m = .ok () m') :
    m'.thread k = m.thread k := by
  simp only [Exec.judge, Exec.bind_apply, Exec.get_apply] at judged
  by_cases same : m.running = id
  · rw [← same] at other
    by_cases entered : n < m.current.frames.length
    · simp only [if_pos same, if_pos entered, Exec.set_apply] at judged
      cases judged
      exact thread_modifyCurrent_ne other
    · simp only [if_pos same, if_neg entered, Exec.bind_apply, Exec.pop_apply, Exec.push_apply] at judged
      cases judged
      exact (@thread_pushResultsOn_ne _ _ _ 1 [_] other).trans (thread_modifyCurrent_ne other)
  · simp only [if_neg same] at judged
    cases judged
    rfl

/-- The same if the call decides a comparison. -/
theorem Outcome.judged {reply : Reply} {u : Unit} (sane : m.Sane) (out : m.Outcome 1 reply (.ok u m')) {n : Nat}
    (count : m.current.frames.length = n) (judged : Exec.judge m.running n m' = .ok () m'') (id : Nat) :
    (m.thread id).Answered (m''.thread id) := by
  have answered := out.answered sane id
  by_cases itself : id = m.running
  · subst itself
    obtain ⟨inside, -, -, -, grown⟩ := out.grows sane
    rcases judge_thread inside judged with same | ⟨entered, flagged⟩ | ⟨same, few, cell, pushed⟩
    · rw [same]
      exact answered
    · rw [flagged]
      cases answered with
      | more frames captures le old =>
        have := congrArg List.length frames
        change _ = m.current.frames.length at this
        omega
      | entered f g frames alike start captures le old =>
        obtain ⟨closure, ip, base, captureBase⟩ := alike
        simp only [Thread.modifyFrame, frames]
        exact .entered f { g with isCondition := true } rfl ⟨closure, ip, base, captureBase⟩ start captures le old
    · have here : m'.thread m.running = m'.current := by rw [← same]; rfl
      rw [here] at answered grown
      have full : (m.thread m.running).stack.size + 1 ≤ m'.current.stack.size := grown same (by omega)
      rw [pushed]
      cases answered with
      | more frames captures le old =>
        refine .more frames captures (by simp only [Array.size_push, Array.size_extract]; omega) fun i low => ?_
        rw [Array.getElem?_push_lt (by simp only [Array.size_extract]; omega), ← old i low,
          Array.getElem?_eq_getElem (by omega)]
        simp
      | entered f g frames alike start captures le old =>
        have := congrArg List.length frames
        rw [List.length_cons] at this
        change _ = m.current.frames.length + 1 at this
        omega
  · rw [judge_thread_ne itself judged]
    exact answered

end Machine

end ScriptEngine
