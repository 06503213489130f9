import ScriptEngine.Proofs.Machine.Settlement
import ScriptEngine.Proofs.Machine.Footing

/-!
# What lies below is left alone

Nothing that is on a thread below the innermost frames is changed by them: a thread `Retains` another if
it has all of its cells, frames and handlers, with more on top. A frame `Works` only above its own bases
(`Poises.works`), so a thread goes on retaining what lies below, whatever the machine does next: take a
step (`Ordered.step_retains`), or unwind a fault to a handler above (`unwindFrom_retains`).
-/

set_option linter.dupNamespace false

namespace ScriptEngine

/-! ## What lies below -/

namespace Thread

variable {t t' t₀ : Thread} {f : Frame} {rest : List Frame}

/-- All of `t₀` is still there on `t`, and whatever has come on top starts above it. -/
structure Retains (t₀ t : Thread) : Prop where
  stack : t.stack.take t₀.stack.size = t₀.stack
  captures : t.captures.take t₀.captures.size = t₀.captures
  frames : ∃ inner, t.frames = inner ++ t₀.frames ∧
    ∀ f ∈ inner, t₀.stack.size ≤ f.base ∧ t₀.captures.size ≤ f.captureBase
  handlers : ∃ new, t.handlers = new ++ t₀.handlers ∧ ∀ h ∈ new, t₀.frames.length ≤ h.frames ∧
    t₀.stack.size ≤ h.stack ∧ t₀.captures.size ≤ h.captures ∧ h.wraps = 0

/-- The frame `f` on top of `rest` has turned the thread `t` into `t'` and has left alone what lies below
its bases. -/
structure Works (f : Frame) (rest : List Frame) (t t' : Thread) : Prop where
  stack : t'.stack.take f.base = t.stack.take f.base
  captures : t'.captures.take f.captureBase = t.captures.take f.captureBase
  frames : ∃ new ip, t'.frames = new ++ { f with ip } :: rest ∧
    ∀ g ∈ new, f.base ≤ g.base ∧ f.captureBase ≤ g.captureBase
  handlers : ∃ new, t'.handlers = new ++ t.handlers ∧ ∀ h ∈ new, rest.length ≤ h.frames ∧
    f.base ≤ h.stack ∧ f.captureBase ≤ h.captures ∧ h.wraps = 0

/-- There is one handler for each protected call that a frame ends. -/
theorem Active.length_handlers (active : t.Active) :
    t.handlers.length = (t.frames.map (·.protections)).sum := by
  have upright := active.2
  cases same : t.frames with
  | nil =>
    rw [same] at upright
    simp only at upright
    simp [upright]
  | cons f rest =>
    rw [same] at upright
    simpa using upright.below.length_handlers

theorem take_take_of_le {xs : Array Nat} {k n : Nat} (low : k ≤ n) : (xs.take n).take k = xs.take k := by
  refine Array.extract_extract.trans ?_
  rw [Nat.zero_add, Nat.zero_add, Nat.min_eq_left low]

/-- What is kept of the beginning of an array. -/
theorem take_of_take {xs ys zs : Array Nat} {n : Nat} (same : xs.take n = ys.take n)
    (kept : ys.take zs.size = zs) (low : zs.size ≤ n) : xs.take zs.size = zs := by
  calc xs.take zs.size = (xs.take n).take zs.size := (take_take_of_le low).symm
    _ = (ys.take n).take zs.size := by rw [same]
    _ = ys.take zs.size := take_take_of_le low
    _ = zs := kept

theorem Retains.size_le (kept : Retains t₀ t) :
    t₀.stack.size ≤ t.stack.size ∧ t₀.captures.size ≤ t.captures.size := by
  have stack := congrArg Array.size kept.stack
  have captures := congrArg Array.size kept.captures
  simp only [Array.size_extract] at stack captures
  omega

/-- A frame that is not one of those below starts above them. -/
theorem Retains.above (kept : Retains t₀ t) (frames : t.frames = f :: rest)
    (more : t₀.frames.length ≤ rest.length) :
    t₀.stack.size ≤ f.base ∧ t₀.captures.size ≤ f.captureBase ∧ ∃ inner, rest = inner ++ t₀.frames ∧
      ∀ g ∈ inner, t₀.stack.size ≤ g.base ∧ t₀.captures.size ≤ g.captureBase := by
  obtain ⟨inner, same, bases⟩ := kept.frames
  rw [frames] at same
  cases inner with
  | nil =>
    have := congrArg List.length same
    simp only [List.nil_append, List.length_cons] at this
    omega
  | cons g inner =>
    obtain ⟨rfl, rfl⟩ := List.cons.inj same
    obtain ⟨stack, captures⟩ := bases f List.mem_cons_self
    exact ⟨stack, captures, inner, rfl, fun g mem => bases g (List.mem_cons_of_mem _ mem)⟩

/-- A frame that works above leaves alone what lies below. -/
theorem Retains.works (kept : Retains t₀ t) (frames : t.frames = f :: rest)
    (more : t₀.frames.length ≤ rest.length) (works : Works f rest t t') : Retains t₀ t' := by
  obtain ⟨base, captureBase, inner, same, bases⟩ := kept.above frames more
  refine ⟨take_of_take works.stack kept.stack base,
    take_of_take works.captures kept.captures captureBase, ?_, ?_⟩
  · obtain ⟨new, ip, grown, starts⟩ := works.frames
    refine ⟨new ++ { f with ip } :: inner, by rw [grown, same]; simp, fun g mem => ?_⟩
    rcases List.mem_append.1 mem with mem | mem
    · have := starts g mem
      omega
    · rcases List.mem_cons.1 mem with rfl | mem
      · exact ⟨base, captureBase⟩
      · exact bases g mem
  · obtain ⟨new, grown, notes⟩ := works.handlers
    obtain ⟨old, same', notes'⟩ := kept.handlers
    refine ⟨new ++ old, by rw [grown, same', List.append_assoc], fun h mem => ?_⟩
    rcases List.mem_append.1 mem with mem | mem
    · have := notes h mem
      omega
    · exact notes' h mem

/-- Handlers that are gone were not of those below. -/
theorem Retains.drop_handlers (kept : Retains t₀ t) {n : Nat}
    (there : t₀.handlers.length ≤ (t.handlers.drop n).length) :
    ∃ new, t.handlers.drop n = new ++ t₀.handlers ∧ ∀ h ∈ new, t₀.frames.length ≤ h.frames ∧
      t₀.stack.size ≤ h.stack ∧ t₀.captures.size ≤ h.captures ∧ h.wraps = 0 := by
  obtain ⟨new, same, notes⟩ := kept.handlers
  rw [same] at there ⊢
  simp only [List.length_drop, List.length_append] at there
  by_cases few : n ≤ new.length
  · exact ⟨new.drop n, List.drop_append_of_le_length few, fun h mem => notes h (List.mem_of_mem_drop mem)⟩
  · obtain none' : t₀.handlers = [] := List.eq_nil_of_length_eq_zero (by omega)
    refine ⟨[], ?_, fun h mem => by cases mem⟩
    rw [none', List.append_nil]
    exact List.drop_eq_nil_of_le (by omega)

/-- Values on top change nothing below. -/
theorem Retains.withCells (kept : Retains t₀ t) (cell count : Nat) : Retains t₀ (t.withCells cell count) := by
  refine ⟨take_of_take (n := t.stack.size) ?_ kept.stack kept.size_le.1, kept.captures, kept.frames,
    kept.handlers⟩
  simp [Thread.withCells]

/-- A thread that gets what it waited for. -/
theorem Retains.receive (kept : Retains t₀ t) (cell : Nat)
    (there : t₀.handlers.length ≤ (t.receive cell).handlers.length) : Retains t₀ (t.receive cell) := by
  have ended : Retains t₀ { t with
      handlers := t.handlers.drop t.awaitingProtections, awaitingProtections := 0 } :=
    ⟨kept.stack, kept.captures, kept.frames, kept.drop_handlers there⟩
  exact ended.withCells cell _

/-- A frame above is left. -/
theorem Retains.leave (kept : Retains t₀ t) (frames : t.frames = f :: rest)
    (more : t₀.frames.length ≤ rest.length)
    (there : t₀.handlers.length ≤ (f.leave rest t).handlers.length) : Retains t₀ (f.leave rest t) := by
  obtain ⟨base, captureBase, inner, same, bases⟩ := kept.above frames more
  refine ⟨?_, ?_, ⟨inner, same, bases⟩, kept.drop_handlers there⟩
  · refine take_of_take (n := f.base) ?_ kept.stack base
    simp [Frame.leave]
  · refine take_of_take (n := f.captureBase) ?_ kept.captures captureBase
    simp [Frame.leave]

/-- A handler that is not one of those below catches a fault. -/
theorem Retains.caught (kept : Retains t₀ t) {handler : Handler} {outer : List Handler}
    (handlers : t.handlers = handler :: outer)
    (there : t₀.handlers.length ≤ (outer.drop handler.wraps).length) :
    Retains t₀ { t.restore handler with handlers := outer.drop handler.wraps, awaitingProtections := 0 } := by
  obtain ⟨new, same, notes⟩ := kept.handlers
  rw [handlers] at same
  cases new with
  | nil =>
    have := congrArg List.length same
    simp only [List.length_cons, List.nil_append, List.length_drop] at this there
    omega
  | cons h new =>
    obtain ⟨rfl, rfl⟩ := List.cons.inj same
    obtain ⟨frames, stack, captures, none'⟩ := notes handler List.mem_cons_self
    refine ⟨?_, ?_, ?_, new, by rw [none']; rfl, fun h mem => notes h (List.mem_cons_of_mem _ mem)⟩
    · refine take_of_take (n := handler.stack) ?_ kept.stack stack
      simp [restore]
    · refine take_of_take (n := handler.captures) ?_ kept.captures captures
      simp [restore]
    · obtain ⟨inner, same, bases⟩ := kept.frames
      refine ⟨inner.drop (t.frames.length - handler.frames), ?_, fun g mem => bases g (List.mem_of_mem_drop mem)⟩
      have length := congrArg List.length same
      rw [List.length_append] at length
      show t.frames.drop _ = _
      rw [same, List.drop_append_of_le_length]
      simp only [List.length_append]
      omega

/-- Something else on top of what is left of an array. -/
theorem take_append_take {xs : Array Nat} {k n : Nat} (low : k ≤ n) (high : n ≤ xs.size)
    (ys : Array Nat) : (xs.take n ++ ys).take k = xs.take k := by
  have inside : k ≤ (xs.take n).size := by
    simp only [Array.size_extract]
    omega
  exact (Array.extract_append_of_stop_le_size_left inside).trans (take_take_of_le low)

/-- The handlers of a single protected call know of no other. -/
theorem Guards.fresh {want n : Nat} {hs : List Handler} (guards : t.Guards want n hs) (few : n ≤ 1) :
    ∀ h ∈ hs, h.frames = t.frames.length ∧ h.stack = t.stack.size ∧ h.captures = t.captures.size ∧
      h.wraps = 0 := by
  intro h mem
  obtain ⟨frames, stack, captures⟩ := guards.noted h mem
  have length := guards.length
  obtain ⟨g, rfl⟩ : ∃ g, hs = [g] := List.length_eq_one_iff.1 (by
    have := List.length_pos_of_mem mem
    omega)
  obtain rfl := List.mem_singleton.1 mem
  have first := guards.first h rfl
  exact ⟨frames, stack, captures, by omega⟩

/-- The operands of an instruction are replaced, and more comes on top. -/
theorem Works.grown {n ip : Nat} (stack captures : Array Nat) (inner : List Frame) (hs : List Handler)
    (low : f.base ≤ n) (high : n ≤ t.stack.size) (inside : f.captureBase ≤ t.captures.size)
    (frames : t'.frames = inner ++ { f with ip } :: rest) (stacked : t'.stack = t.stack.take n ++ stack)
    (captured : t'.captures = t.captures ++ captures) (handlers : t'.handlers = hs ++ t.handlers)
    (starts : ∀ g ∈ inner, n ≤ g.base ∧ t.captures.size ≤ g.captureBase)
    (notes : ∀ h ∈ hs, h.frames = rest.length + 1 ∧ h.stack = n ∧ h.captures = t.captures.size ∧
      h.wraps = 0) : Works f rest t t' := by
  refine ⟨by rw [stacked]; exact take_append_take low high stack, ?_, ⟨inner, ip, frames, ?_⟩,
    hs, handlers, ?_⟩
  · rw [captured]
    exact Array.extract_append_of_stop_le_size_left inside
  · intro g mem
    have := starts g mem
    omega
  · intro h mem
    have := notes h mem
    omega

end Thread

/-- The machine that an action leaves behind. -/
def Exec.final {α : Type} : EStateM.Result Fault Machine α → Machine
  | .ok _ m => m
  | .error _ m => m

namespace Machine

open Thread (Works Retains)

variable {m m' m₁ : Machine} {t : Thread} {f : Frame} {rest : List Frame}

/-- A call works above the bases of the frame that makes it. -/
theorem Outcome.works {n ip want : Nat} {reply : Reply} {r : EStateM.Result Fault Machine Unit}
    (sane : m₁.Sane) (thread : m₁.current = { t with
      stack := t.stack.take n, frames := { f with ip } :: rest })
    (low : f.base ≤ n) (high : n ≤ t.stack.size) (inside : f.captureBase ≤ t.captures.size)
    (few : reply.layers ≤ 1) (out : m₁.Outcome want reply r) :
    Works f rest t ((Exec.final r).thread m₁.running) := by
  have size : (t.stack.take n).size = n := by simpa using high
  cases out with
  | @values m₂ vs alone same =>
    have there : (m₂.pushResults want vs).thread m₁.running = (m₂.pushResults want vs).current := by
      rw [← alone.running, current, pushResults, running_pushResultsOn]
    rw [Exec.final, there, current_pushResults (sane.alone alone).running_lt, same, thread]
    exact .grown _ #[] [] [] low high inside rfl rfl (by simp [Thread.withCells]) rfl (by simp) (by simp)
  | @entered m₂ k c args entered =>
    obtain ⟨cell, hs, -, guards, now⟩ := entered.thread
    have there : m₂.thread m₁.running = m₂.current := by rw [← entered.alone.running]; rfl
    rw [Exec.final, there, now, thread]
    rw [thread] at guards
    refine .grown _ _ [_] _ low high inside rfl Array.push_eq_append rfl rfl ?_ ?_
    · intro g mem
      obtain rfl := List.mem_singleton.1 mem
      simp [size]
    · intro h mem
      obtain ⟨frames, stack, captures, none'⟩ := guards.fresh few h mem
      exact ⟨by simpa using frames, by rw [stack, size], captures, none'⟩
  | @blocked m₂ k id vs switched =>
    obtain ⟨hs, guards, now⟩ := switched.caller
    rw [Exec.final, now, thread]
    rw [thread] at guards
    refine .grown #[] #[] [] _ low high inside rfl (by simp) (by simp) rfl (by simp) ?_
    intro h mem
    obtain ⟨frames, stack, captures, none'⟩ := guards.fresh few h mem
    exact ⟨by simpa using frames, by rw [stack, size], captures, none'⟩
  | @raised m₂ k fault raised =>
    obtain ⟨hs, length, notes, last, now⟩ := raised.thread
    have there : m₂.thread m₁.running = m₂.current := by rw [← raised.alone.running]; rfl
    rw [Exec.final, there, now, thread]
    rw [thread] at notes
    refine .grown #[] #[] [] _ low high inside rfl (by simp) (by simp) rfl (by simp) ?_
    intro h mem
    obtain ⟨frames, stack, captures, none'⟩ := notes h mem
    exact ⟨by simpa using frames, by rw [stack, size], captures, none'⟩

theorem judge_ok (id n : Nat) (m : Machine) : ∃ m', Exec.judge id n m = .ok () m' := by
  simp only [Exec.judge, Exec.bind_apply, Exec.get_apply]
  split
  · split <;> exact ⟨_, rfl⟩
  · exact ⟨m, rfl⟩

/-- Judging a comparison changes the frame that was entered for it, or the result on top. -/
theorem judge_thread {id n : Nat} (inside : id < m.threads.size)
    (judged : Exec.judge id n m = .ok () m') :
    m'.thread id = m.thread id ∨
      (n < (m.thread id).frames.length ∧
        m'.thread id = (m.thread id).modifyFrame ({ · with isCondition := true })) ∨
      m.running = id ∧ m.current.frames.length ≤ n ∧
        ∃ cell, m'.thread id = { m.current with
          stack := (m.current.stack.take (m.current.stack.size - 1)).push cell } := by
  simp only [Exec.judge, Exec.bind_apply, Exec.get_apply] at judged
  by_cases same : m.running = id
  · right
    by_cases entered : n < m.current.frames.length
    · left
      simp only [if_pos same, if_pos entered, Exec.set_apply] at judged
      cases judged
      subst same
      exact ⟨entered, thread_modifyThread_self inside⟩
    · right
      simp only [if_pos same, if_neg entered, Exec.bind_apply, Exec.pop_apply, Exec.push_apply] at judged
      cases judged
      refine ⟨same, Nat.le_of_not_lt entered, (m.drop 1).store.cells.size, ?_⟩
      subst same
      show ((m.drop 1).push _).current = _
      rw [push_eq_pushResults, current_pushResults (by simpa [drop] using inside), current_drop inside]
      simp [Thread.withCells, slots]
  · simp only [if_neg same] at judged
    cases judged
    exact Or.inl rfl

theorem judge_works {id : Nat} (inside : id < m.threads.size) (works : Works f rest t (m.thread id))
    (finished : m.running = id → m.current.frames.length ≤ rest.length + 1 →
      f.base + 1 ≤ m.current.stack.size)
    (judged : Exec.judge id (rest.length + 1) m = .ok () m') : Works f rest t (m'.thread id) := by
  rcases judge_thread inside judged with same | ⟨entered, flagged⟩ | ⟨same, few, cell, pushed⟩
  · rw [same]
    exact works
  · rw [flagged]
    obtain ⟨new, ip, frames, starts⟩ := works.frames
    cases new with
    | nil => simp [frames] at entered
    | cons g new =>
      simp only [Thread.modifyFrame, frames, List.cons_append]
      refine ⟨works.stack, works.captures, ⟨{ g with isCondition := true } :: new, ip, rfl, ?_⟩,
        works.handlers⟩
      intro g' mem
      rcases List.mem_cons.1 mem with rfl | mem
      · exact starts g List.mem_cons_self
      · exact starts g' (List.mem_cons_of_mem _ mem)
  · have low := finished same few
    subst same
    rw [pushed]
    refine ⟨?_, works.captures, works.frames, works.handlers⟩
    rw [Array.push_eq_append, Thread.take_append_take (by omega) (by omega)]
    exact works.stack

/-- An instruction takes nothing from the closure list below the frame's view of it. -/
theorem closing_take {captured : Nat → Nat} {d : Depths} {op : Opcode} {a b : Nat}
    (h : Poised m f rest captured d op a b) :
    (op.closing a m.current.stack m.current.captures).take f.captureBase =
      m.current.captures.take f.captureBase := by
  have captures := h.captures
  have closed := h.legal.closed
  cases op with
  | closeVars =>
    have low : f.captureBase ≤ m.current.captures.size := by omega
    exact Array.extract_append_of_stop_le_size_left low
  | popClosed =>
    have release := h.legal.release rfl
    have low : f.captureBase ≤ m.current.captures.size - a := by omega
    simp only [Opcode.closing, Array.shrink_eq_take, Array.extract_extract, Nat.zero_add, Nat.min_eq_left low]
  | _ => rfl

/-- An instruction other than a return works above the bases of its frame. -/
theorem Poises.works (free : ¬m.Doubles) {op : Opcode} {a b : Nat}
    (poises : m.Poises f rest op a b) (other : op ≠ .ret) :
    Works f rest m.current
      ((Exec.final (Exec.perform f.closure op a b m.advance)).thread m.running) := by
  obtain ⟨captured, d, poised⟩ := poises.poised
  obtain ⟨base, captureBase⟩ := poises.base_le
  have thread := poises.thread
  have running : m.advance.running = m.running := rfl
  have result := performed poised other
  generalize Exec.perform f.closure op a b m.advance = r at result
  have touched := poised.touched_le
  rw [thread] at touched
  cases result with
  | @stays m' pushed captures ip turns size closed list next =>
    have there : m'.thread m.running = m'.current := by rw [← running, ← turns.alone.running]; rfl
    rw [list] at turns
    rw [Exec.final, there, turns.thread]
    have captured := closing_take poised
    rw [thread] at captured ⊢
    refine ⟨Thread.take_append_take (by simp only; omega) (by simp) _, captured, ⟨[], ip, rfl, by simp⟩,
      [], rfl, by simp⟩
  | @raises m' size fault low high turns _ =>
    have there : m'.thread m.running = m'.current := by rw [← running, ← turns.alone.running]; rfl
    rw [thread] at low high
    rw [Exec.final, there, turns.thread, thread]
    exact .grown #[] #[] [] [] (n := size) (by simp only at low; omega) high captureBase rfl (by simp) (by simp) rfl
      (by simp) (by simp)
  | @calls m₁ callee args want r asked turns dropped size closed next called =>
    have same : m₁.store = m.advance.store ∧ m₁.config = m.advance.config := by rw [dropped]; exact ⟨rfl, rfl⟩
    rw [thread] at turns
    have sane := poised.sane.alone turns.alone
    obtain ⟨reply, out, few, -⟩ := Exec.call_outcome sane callee args want
    rw [callTarget_congr (m := m) same.1 same.2] at few
    have single : reply.layers ≤ 1 :=
      few fun rest target => free ⟨callee, args, want, rest, poises.asks.trans asked, target⟩
    have works := out.works (t := m.current) sane turns.thread base (by simp) captureBase single
    rw [turns.alone.running] at works
    rcases called with rfl | ⟨-, rfl⟩
    · exact works
    · rw [Exec.bind_apply]
      cases made : Exec.call callee args want m₁ with
      | error fault m₂ =>
        rw [made] at works
        exact works
      | ok u m₂ =>
        rw [made] at works out
        obtain ⟨inside, -, -, -, grown⟩ := out.grows sane
        rw [turns.alone.running] at inside
        obtain ⟨m₃, judged⟩ := judge_ok m.running (rest.length + 1) m₂
        simp only [running, judged]
        refine judge_works inside works (fun same few => ?_) judged
        rw [turns.alone.running, turns.thread, running, ← same] at grown
        have full := grown rfl few
        have pos := slots_pos want
        simp only [Array.size_extract] at full
        change _ ≤ m₂.current.stack.size at full
        omega

/-! ## One move -/

section Move

variable {t₀ : Thread} {id : Nat}

/-- A return leaves its frame and gives the results to the one below or to the thread that waits. -/
theorem Poises.return_cases (h : m.Ordered Thread.Active) {a b : Nat} (poises : m.Poises f rest .ret a b)
    {r : Option (List Value)} (step : Exec.step m = .ok r m') :
    ∃ k, m.Alone k ∧ k.current = Frame.leave { f with ip := f.ip + 1 } rest m.current ∧
      ((∃ vs, m' = k.pushResults f.want vs) ∨ m' = k ∨ ∃ resumer others vs,
        resumer ∈ m.waiting ∧ m' = { k.deliver resumer vs with running := resumer, waiting := others }) := by
  obtain ⟨captured, d, poised⟩ := poises.poised
  obtain ⟨base, captureBase⟩ := poises.base_le
  have touched := poised.touched_le
  have turns := Turns.drop poised.sane a
  rw [poises.thread] at turns touched
  have alone := (Alone.modifyCurrent h.sane _).trans h.sane turns.alone
  have frames : (m.advance.drop a).current.frames = { f with ip := f.ip + 1 } :: rest := by
    rw [turns.thread]
  refine ⟨(m.advance.drop a).modifyCurrent (Frame.leave { f with ip := f.ip + 1 } rest),
    alone.trans h.sane (.modifyCurrent (h.sane.alone alone) _), ?_, ?_⟩
  · rw [current_modifyCurrent (h.sane.alone alone).running_lt, turns.thread]
    have low : f.base ≤ m.current.stack.size - a := by
      simp only [Opcode.touched, Opcode.operands] at touched
      omega
    simp [Frame.leave, Nat.min_eq_left low]
  · rw [poises.returns rfl] at step
    simp only [Exec.bind_apply, Exec.popSpread_eq] at step
    rcases Exec.returnFrom_cases frames (m.advance.spread a) with ⟨-, done⟩ | ⟨-, -, done⟩ |
      ⟨-, resumer, others, waiting, done⟩ <;> rw [done] at step <;> cases step
    · exact Or.inl ⟨_, rfl⟩
    · exact Or.inr (Or.inl rfl)
    · have mem : resumer ∈ (m.advance.drop a).waiting := waiting ▸ List.mem_cons_self
      exact Or.inr (Or.inr ⟨resumer, others, _, mem, rfl⟩)

/-- A return leaves alone what lies below its frame. -/
theorem Poises.return_retains (h : m.Ordered Thread.Active) {a b : Nat} (poises : m.Poises f rest .ret a b)
    (inside : id < m.threads.size) (kept : Retains t₀ (m.thread id))
    (more : id = m.running → t₀.frames.length < m.current.frames.length) {r : Option (List Value)}
    (step : Exec.step m = .ok r m')
    (there : t₀.handlers.length ≤ (m'.thread id).handlers.length) : Retains t₀ (m'.thread id) := by
  obtain ⟨k, alone, left, which⟩ := poises.return_cases h step
  have sane := h.sane.alone alone
  have here (itself : id = m.running) (enough : t₀.handlers.length ≤ k.current.handlers.length) :
      Retains t₀ k.current := by
    subst itself
    have longer := more rfl
    rw [poises.frames] at longer
    rw [left] at enough ⊢
    show Retains t₀ (f.leave rest m.current)
    exact kept.leave poises.frames (Nat.le_of_lt_succ longer) enough
  have thread (other : id ≠ m.running) : k.thread id = m.thread id := alone.others id inside other
  have current (itself : id = m.running) : k.thread id = k.current := by
    rw [itself, ← alone.running]
    rfl
  have stays (enough : t₀.handlers.length ≤ (k.thread id).handlers.length) :
      Retains t₀ (k.thread id) := by
    by_cases itself : id = m.running
    · rw [current itself] at enough ⊢
      exact here itself enough
    · rw [thread itself]
      exact kept
  rcases which with ⟨vs, rfl⟩ | rfl | ⟨resumer, others, vs, mem, rfl⟩
  · by_cases itself : id = k.running
    · subst itself
      rw [pushResults, thread_pushResultsOn_self sane.running_lt] at there ⊢
      exact (stays there).withCells _ _
    · rw [pushResults, thread_pushResultsOn_ne itself] at there ⊢
      exact stays there
  · exact stays there
  · have bound : resumer < k.threads.size :=
      sane.bound resumer (List.mem_cons_of_mem _ (alone.waiting ▸ mem))
    change t₀.handlers.length ≤ ((k.deliver resumer vs).thread id).handlers.length at there
    show Retains t₀ ((k.deliver resumer vs).thread id)
    by_cases target : id = resumer
    · subst target
      have other : id ≠ m.running := fun same => (List.nodup_cons.1 h.sane.distinct).1 (same ▸ mem)
      rw [thread_deliver_self bound, thread other] at there ⊢
      exact kept.receive _ there
    · rw [thread_deliver_ne target] at there ⊢
      exact stays there

/-- A step that raises a fault leaves alone what lies below the frames on top of it. -/
theorem Ordered.error_retains (h : m.Ordered Thread.Active) (free : ¬m.Doubles)
    (inside : id < m.threads.size) (kept : Retains t₀ (m.thread id))
    (more : id = m.running → t₀.frames.length < m.current.frames.length) {fault : Fault}
    (step : Exec.step m = .error fault m') : Retains t₀ (m'.thread id) := by
  cases frames : m.current.frames with
  | nil =>
    simp only [Exec.step, Exec.bind_apply, Exec.get_apply, frames, Exec.throw_apply] at step
    cases step
    exact kept
  | cons f rest =>
    obtain ⟨op, a, b, poises⟩ := h.poises frames
    have ret : op ≠ .ret := by
      rintro rfl
      obtain ⟨r, m'', done, -⟩ := h.returns poises
      rw [done] at step
      cases step
    have works := poises.works free ret
    have proceeds := h.performs poises ret
    have few : m'.current.handlers.length ≤ m.current.handlers.length + 1 :=
      Nat.le_of_not_lt fun many => free ((fails_of_error h step).doubled many)
    rw [poises.performs ret, Exec.bind_apply] at step
    cases done : Exec.perform f.closure op a b m.advance with
    | ok u m'' =>
      rw [done] at step
      cases step
    | error fault' m'' =>
      rw [done] at step proceeds works
      cases step
      by_cases itself : id = m.running
      · subst itself
        have longer := more rfl
        rw [frames] at longer
        exact kept.works frames (Nat.le_of_lt_succ longer) works
      · rw [(proceeds few).alone.others id inside itself]
        exact kept

/-- A step leaves alone what lies below the frames on top of it, as long as the handlers are there. -/
theorem Ordered.step_retains (h : m.Ordered Thread.Active) (free : ¬m.Doubles)
    (inside : id < m.threads.size) (kept : Retains t₀ (m.thread id))
    (more : id = m.running → t₀.frames.length < m.current.frames.length) {r : Option (List Value)}
    (step : Exec.step m = .ok r m')
    (there : t₀.handlers.length ≤ (m'.thread id).handlers.length) : Retains t₀ (m'.thread id) := by
  cases frames : m.current.frames with
  | nil =>
    simp only [Exec.step, Exec.bind_apply, Exec.get_apply, frames, Exec.throw_apply] at step
    cases step
  | cons f rest =>
    obtain ⟨op, a, b, poises⟩ := h.poises frames
    by_cases ret : op = .ret
    · subst ret
      exact poises.return_retains h inside kept more step there
    · have works := poises.works free ret
      have proceeds := h.performs poises ret
      rw [poises.performs ret, Exec.bind_apply] at step
      cases done : Exec.perform f.closure op a b m.advance with
      | error fault' m'' =>
        rw [done] at step
        cases step
      | ok u m'' =>
        rw [done] at step proceeds works
        cases step
        by_cases itself : id = m.running
        · subst itself
          have longer := more rfl
          rw [frames] at longer
          exact kept.works frames (Nat.le_of_lt_succ longer) works
        · rcases proceeds.others id inside itself with same | ⟨vs, -, passed⟩
          · rw [same.thread]
            exact kept
          · obtain ⟨m₀, -, thread, -⟩ := passed.delivery
            rw [thread] at there ⊢
            exact kept.receive _ there

/-- A thread with nothing to catch a fault is none that has a handler below. -/
theorem retains_passed (kept : Retains t₀ (m.thread id)) (some' : t₀.handlers ≠ []) {k : Nat}
    (handlers : (m.thread k).handlers = []) :
    id ≠ k ∧ (m.modifyThread k fun _ => {}).thread id = m.thread id := by
  obtain ⟨new, same, -⟩ := kept.handlers
  have other : id ≠ k := by
    rintro rfl
    rw [handlers] at same
    exact some' (List.append_eq_nil_iff.1 same.symm).2
  exact ⟨other, thread_modifyThread_ne other⟩

/-- A handler above catches a fault. -/
theorem catchWith_retains (inside : m.running < m.threads.size) (fault : Fault) {handler : Handler}
    {outer : List Handler} (handlers : m.current.handlers = handler :: outer)
    (kept : Retains t₀ (m.thread id))
    (there : t₀.handlers.length ≤ ((m.catchWith handler outer fault).thread id).handlers.length) :
    Retains t₀ ((m.catchWith handler outer fault).thread id) := by
  by_cases itself : id = m.running
  · subst itself
    have now : (m.catchWith handler outer fault).thread m.running =
        (m.catchWith handler outer fault).current := by rw [current, running_catchWith]
    rw [now, current_catchWith inside] at there ⊢
    exact (kept.caught handlers there).withCells _ _
  · rw [thread_catchWith_ne itself]
    exact kept

/-- Unwinding leaves alone what lies below the handler that catches the fault. -/
theorem unwindFrom_retains (fault : Fault) (kept : Retains t₀ (m.thread id)) (some' : t₀.handlers ≠ [])
    {k : Nat} {waiting : List Nat} (bound : ∀ j ∈ k :: waiting, j < m.threads.size)
    (there : t₀.handlers.length ≤ ((m.unwindFrom fault k waiting).2.thread id).handlers.length) :
    Retains t₀ ((m.unwindFrom fault k waiting).2.thread id) := by
  induction waiting generalizing m k with
  | nil =>
    unfold unwindFrom at there ⊢
    cases handlers : (m.thread k).handlers with
    | cons handler outer =>
      rw [handlers] at there
      exact catchWith_retains (m := { m with running := k, waiting := [] }) (bound k (by simp)) fault
        handlers kept there
    | nil =>
      obtain ⟨-, same⟩ := retains_passed kept some' handlers
      show Retains t₀ ((m.modifyThread k fun _ => {}).thread id)
      rw [same]
      exact kept
  | cons resumer rest ih =>
    unfold unwindFrom at there ⊢
    cases handlers : (m.thread k).handlers with
    | cons handler outer =>
      rw [handlers] at there
      exact catchWith_retains (m := { m with running := k, waiting := resumer :: rest })
        (bound k (by simp)) fault handlers kept there
    | nil =>
      rw [handlers] at there
      obtain ⟨-, same⟩ := retains_passed kept some' handlers
      refine ih (m := m.modifyThread k fun _ => {}) (same ▸ kept) (fun j mem => ?_) there
      simpa using bound j (List.mem_cons_of_mem _ mem)

/-- Where a handler stays, so do the frames on top of those that it belongs to. -/
theorem frames_lt_of_retains (active : t.Active) (kept : Retains t₀ t)
    (marked : (t₀.frames.map (·.protections)).sum < t₀.handlers.length) :
    t₀.frames.length < t.frames.length := by
  obtain ⟨inner, frames, -⟩ := kept.frames
  obtain ⟨new, handlers, -⟩ := kept.handlers
  have count := active.length_handlers
  cases inner with
  | nil =>
    have length := congrArg List.length handlers
    rw [List.nil_append] at frames
    rw [count, frames, List.length_append] at length
    omega
  | cons f inner =>
    rw [frames]
    simp

end Move

end Machine

end ScriptEngine
