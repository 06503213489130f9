import ScriptEngine.Proofs.Machine.Steps

/-!
# What a frame stands on

Put any cells in the place of those below a frame's base, and any more of them (`Ground`, `Machine.onto`):
a step of the frame does just the same (`Poises.step_onto`). So no instruction reads, pops, overwrites or
captures anything below the base of its frame, and none takes from a stack what is not there. Each
action of the machine commutes with the change (`Blind`) where it finds its operands above the base.
-/

set_option linter.dupNamespace false

namespace ScriptEngine

/-! ## Lists of which the older part stays -/

/-- The list with `f` applied to all but the `keep` oldest, which come last. -/
def raiseAbove {α : Type} (keep : Nat) (f : α → α) : List α → List α
  | [] => []
  | x :: rest => (if keep ≤ rest.length then f x else x) :: raiseAbove keep f rest

section

variable {α : Type} {keep : Nat} {f : α → α}

@[simp] theorem length_raiseAbove (xs : List α) : (raiseAbove keep f xs).length = xs.length := by
  induction xs with
  | nil => rfl
  | cons x rest ih => rw [raiseAbove, List.length_cons, ih, List.length_cons]

theorem raiseAbove_cons {x : α} {rest : List α} (new : keep ≤ rest.length) :
    raiseAbove keep f (x :: rest) = f x :: raiseAbove keep f rest := by
  rw [raiseAbove, if_pos new]

theorem raiseAbove_old {xs : List α} (old : xs.length ≤ keep) : raiseAbove keep f xs = xs := by
  induction xs with
  | nil => rfl
  | cons x rest ih =>
    rw [List.length_cons] at old
    rw [raiseAbove, if_neg (by omega), ih (by omega)]

theorem raiseAbove_drop (n : Nat) (xs : List α) :
    raiseAbove keep f (xs.drop n) = (raiseAbove keep f xs).drop n := by
  induction xs generalizing n with
  | nil => rw [List.drop_nil, raiseAbove, List.drop_nil]
  | cons x rest ih =>
    cases n with
    | zero => rfl
    | succ n => rw [List.drop_succ_cons, ih, raiseAbove, List.drop_succ_cons]

@[simp] theorem raiseAbove_eq_nil {xs : List α} : raiseAbove keep f xs = [] ↔ xs = [] := by
  rw [← List.length_eq_zero_iff, length_raiseAbove, List.length_eq_zero_iff]

end

/-! ## Other ground -/

/-- Other cells for a frame of a thread to stand on, with the number of the frames and of the handlers
below it. -/
structure Ground where
  thread : Nat
  frames : Nat
  handlers : Nat
  /-- The base of the frame. -/
  base : Nat
  cells : Array Nat
  enough : base ≤ cells.size

namespace Ground

/-- How much further up the frame stands. -/
def rise (g : Ground) : Nat := g.cells.size - g.base

theorem base_add_rise (g : Ground) : g.base + g.rise = g.cells.size := by
  have := g.enough
  unfold rise
  omega

end Ground

def Frame.raise (n : Nat) (f : Frame) : Frame := { f with base := f.base + n }

def Handler.raise (n : Nat) (h : Handler) : Handler := { h with stack := h.stack + n }

/-- The thread with other cells below the frame; bases and notes of what is above them move along. -/
def Thread.onto (g : Ground) (t : Thread) : Thread :=
  { t with
    stack := g.cells ++ t.stack.extract g.base t.stack.size
    frames := raiseAbove g.frames (Frame.raise g.rise) t.frames
    handlers := raiseAbove g.handlers (Handler.raise g.rise) t.handlers }

/-- The machine with other cells below the frame, and with as much more room for its thread. -/
def Machine.onto (g : Ground) (m : Machine) : Machine :=
  { m.modifyThread g.thread (Thread.onto g) with
    config := { m.config with maxStack := m.config.maxStack + g.rise } }

/-- What comes of an action, on other ground. -/
def Ground.result {α : Type} (g : Ground) :
    EStateM.Result Fault Machine α → EStateM.Result Fault Machine α
  | .ok a m => .ok a (m.onto g)
  | .error fault m => .error fault (m.onto g)

/-- The thread has not lost any of what stands on the ground. -/
structure Thread.Stands (g : Ground) (t : Thread) : Prop where
  stack : g.base ≤ t.stack.size
  frames : g.frames ≤ t.frames.length
  handlers : g.handlers ≤ t.handlers.length

/-- On other ground the action does the same. -/
def Blind {α : Type} (g : Ground) (x : Exec α) (m : Machine) : Prop :=
  x (m.onto g) = g.result (x m)

namespace Thread

variable {g : Ground} {t : Thread}

theorem size_onto (h : t.Stands g) : (t.onto g).stack.size = t.stack.size + g.rise := by
  have low := h.stack
  have := g.base_add_rise
  simp only [onto, Array.size_append, Array.size_extract]
  omega

@[simp] theorem length_frames_onto : (t.onto g).frames.length = t.frames.length := length_raiseAbove _

@[simp] theorem length_handlers_onto : (t.onto g).handlers.length = t.handlers.length :=
  length_raiseAbove _

/-- What is put on top stays on top. -/
theorem withCells_onto (low : g.base ≤ t.stack.size) (start count : Nat) :
    (t.onto g).withCells start count = (t.withCells start count).onto g := by
  have stack : g.cells ++ t.stack.extract g.base t.stack.size ++ Array.range' start count =
      g.cells ++ (t.stack ++ Array.range' start count).extract g.base
        (t.stack ++ Array.range' start count).size := by
    apply Array.toList_inj.1
    simp only [Array.toList_append, Array.toList_extract, List.extract_eq_take_drop, Array.size_append,
      List.append_assoc]
    rw [List.drop_append_of_le_length (by simpa using low), List.take_of_length_le (by simp),
      List.take_of_length_le (by simp; omega)]
  simp only [withCells, onto, stack]

/-- What is taken from the top was on top. -/
theorem take_onto {n : Nat} (own : g.base + n ≤ t.stack.size) :
    { t.onto g with stack := (t.onto g).stack.take ((t.onto g).stack.size - n) } =
      { t with stack := t.stack.take (t.stack.size - n) }.onto g := by
  have stack : (g.cells ++ t.stack.extract g.base t.stack.size).take
      ((g.cells ++ t.stack.extract g.base t.stack.size).size - n) =
      g.cells ++ (t.stack.take (t.stack.size - n)).extract g.base (t.stack.take (t.stack.size - n)).size := by
    have size : (g.cells ++ t.stack.extract g.base t.stack.size).size - n =
        g.cells.size + (t.stack.size - n - g.base) := by
      rw [Array.size_append, Array.size_extract]
      omega
    have whole : g.cells.extract 0 (g.cells.size + (t.stack.size - n - g.base)) = g.cells :=
      Array.extract_eq_self_of_le (Nat.le_add_right ..)
    have stop : min (g.base + (t.stack.size - n - g.base)) t.stack.size = t.stack.size - n := by omega
    rw [size, Array.take_eq_extract, Array.take_eq_extract, Array.extract_append, Array.extract_extract,
      Array.size_extract, whole, Nat.add_sub_cancel_left, Nat.zero_sub, Nat.add_zero, stop, Array.extract_extract]
    congr 2
    · simp
    · omega
  simp only [onto, stack]

theorem cell?_onto {n : Nat} (pos : 1 ≤ n) (own : g.base + n ≤ t.stack.size) :
    (t.onto g).cell? n = t.cell? n := by
  simp only [cell?, onto]
  grind

theorem extract_onto {n : Nat} (own : g.base + n ≤ t.stack.size) :
    (t.onto g).stack.extract ((t.onto g).stack.size - n) (t.onto g).stack.size =
      t.stack.extract (t.stack.size - n) t.stack.size := by
  simp only [onto]
  apply Array.ext_getElem?
  intro i
  simp only [Array.getElem?_extract, Array.getElem?_append, Array.size_append, Array.size_extract]
  grind

theorem modifyFrame_onto {f : Frame → Frame} (keeps : ∀ x n, f (Frame.raise n x) = (f x).raise n) :
    (t.onto g).modifyFrame f = (t.modifyFrame f).onto g := by
  unfold modifyFrame
  cases frames : t.frames with
  | nil => simp [onto, frames, raiseAbove]
  | cons frame callers =>
    simp only [onto, frames, raiseAbove, mk.injEq, List.cons.injEq, true_and, and_true]
    split
    · exact keeps frame g.rise
    · rfl

theorem modifyHandler_onto {f : Handler → Handler} (keeps : ∀ x n, f (Handler.raise n x) = (f x).raise n) :
    (t.onto g).modifyHandler f = (t.modifyHandler f).onto g := by
  unfold modifyHandler
  cases handlers : t.handlers with
  | nil => simp [onto, handlers, raiseAbove]
  | cons handler outer =>
    simp only [onto, handlers, raiseAbove, mk.injEq, List.cons.injEq, true_and, and_true]
    split
    · exact keeps handler g.rise
    · rfl

theorem modifyHandler_eq (t : Thread) (f : Handler → Handler) :
    ∃ hs, hs.length = t.handlers.length ∧ t.modifyHandler f = { t with handlers := hs } := by
  obtain ⟨stack, captures, frames, handlers, _, _⟩ := t
  cases handlers with
  | nil => exact ⟨[], rfl, rfl⟩
  | cons handler outer => exact ⟨f handler :: outer, rfl, rfl⟩

theorem pushHandler_onto (h : t.Stands g) (want : Nat) :
    (t.onto g).pushHandler want = (t.pushHandler want).onto g := by
  have size := t.size_onto h
  simp only [pushHandler, size, length_frames_onto]
  simp only [onto, raiseAbove_cons h.handlers]
  rfl

/-- The thread with a frame for a closure. -/
def framed (c : Closure) (want n : Nat) (t : Thread) : Thread :=
  { t with
    captures := t.captures ++ c.upvalues
    frames := { closure := c, ip := 0, base := t.stack.size, captureBase := t.captures.size, want,
                protections := n } :: t.frames }

theorem framed_onto (h : t.Stands g) (c : Closure) (want n : Nat) :
    (t.onto g).framed c want n = (t.framed c want n).onto g := by
  have size := t.size_onto h
  simp only [framed, size]
  simp only [onto, raiseAbove_cons h.frames]
  rfl

end Thread

namespace Machine

variable {g : Ground} {m m' : Machine}

@[simp] theorem store_onto : (m.onto g).store = m.store := rfl
@[simp] theorem running_onto : (m.onto g).running = m.running := rfl
@[simp] theorem waiting_onto : (m.onto g).waiting = m.waiting := rfl
theorem withRunning_onto (running : Nat) (waiting : List Nat) :
    ({ m.onto g with running, waiting } : Machine) = ({ m with running, waiting } : Machine).onto g := rfl
@[simp] theorem hosts_onto : (m.onto g).hosts = m.hosts := rfl
@[simp] theorem global_onto (name : String) : (m.onto g).global name = m.global name := rfl
@[simp] theorem size_onto : (m.onto g).threads.size = m.threads.size := size_modifyThread

theorem thread_onto_self (inside : g.thread < m.threads.size) :
    (m.onto g).thread g.thread = (m.thread g.thread).onto g :=
  thread_modifyThread_self inside

theorem thread_onto_ne {id : Nat} (other : id ≠ g.thread) : (m.onto g).thread id = m.thread id :=
  thread_modifyThread_ne other

theorem status_onto (id : Nat) : (m.onto g).status id = m.status id := by
  have dead : ((m.onto g).thread id).isDead = (m.thread id).isDead := by
    by_cases same : id = g.thread
    · subst same
      by_cases inside : g.thread < m.threads.size
      · rw [thread_onto_self inside]
        show List.isEmpty (raiseAbove _ _ _) = List.isEmpty _
        cases (m.thread g.thread).frames <;> rfl
      · simp [thread, Nat.le_of_not_lt inside]
    · rw [thread_onto_ne same]
  unfold status
  rw [dead]
  rfl

theorem modifyThread_comm {id id' : Nat} (other : id ≠ id') (f f' : Thread → Thread) :
    (m.modifyThread id f).modifyThread id' f' = (m.modifyThread id' f').modifyThread id f := by
  simp only [modifyThread, mk.injEq, true_and, and_true]
  apply Array.ext_getElem?
  intro i
  simp only [Array.getElem?_modify]
  split <;> split <;> first | rfl | omega

/-- A change of the thread that stands on the ground. -/
theorem modifyThread_onto {f f' : Thread → Thread}
    (keeps : f' ((m.thread g.thread).onto g) = (f (m.thread g.thread)).onto g) :
    (m.onto g).modifyThread g.thread f' = (m.modifyThread g.thread f).onto g := by
  have both : (m.modifyThread g.thread (Thread.onto g)).modifyThread g.thread f' =
      (m.modifyThread g.thread f).modifyThread g.thread (Thread.onto g) := by
    rw [modifyThread_modifyThread, modifyThread_modifyThread]
    exact modifyThread_congr keeps
  unfold onto
  rw [← both]
  rfl

/-- A change of another thread. -/
theorem modifyThread_onto_ne {id : Nat} (other : id ≠ g.thread) (f : Thread → Thread) :
    (m.onto g).modifyThread id f = (m.modifyThread id f).onto g := by
  unfold onto
  rw [modifyThread_comm other]
  rfl

theorem pushResultsOn_onto (low : g.base ≤ (m.thread g.thread).stack.size) (id want : Nat)
    (vs : List Value) :
    (m.onto g).pushResultsOn id want vs = (m.pushResultsOn id want vs).onto g := by
  rw [pushResultsOn_eq, pushResultsOn_eq, store_onto]
  by_cases same : id = g.thread
  · subst same
    rw [modifyThread_onto (f := (·.withCells m.store.cells.size (slots want)))
      (Thread.withCells_onto low _ _)]
    rfl
  · rw [modifyThread_onto_ne same]
    rfl

/-- What another thread gets does not depend on the ground. -/
theorem deliver_onto (low : g.base ≤ (m.thread g.thread).stack.size) {id : Nat}
    (other : id ≠ g.thread) (vs : List Value) : (m.onto g).deliver id vs = (m.deliver id vs).onto g := by
  unfold deliver
  rw [thread_onto_ne other, modifyThread_onto_ne other, pushResultsOn_onto]
  rw [thread_modifyThread_ne (Ne.symm other)]
  exact low

/-- The frame's thread runs, and has not lost any of what stands on the ground. -/
structure Stands (g : Ground) (m : Machine) : Prop where
  running : m.running = g.thread
  inside : m.running < m.threads.size
  current : m.current.Stands g

namespace Stands

variable (h : m.Stands g)
include h

theorem current_onto : (m.onto g).current = m.current.onto g := by
  have at' : m.current = m.thread g.thread := by rw [← h.running]; rfl
  rw [at', ← thread_onto_self (h.running ▸ h.inside), ← h.running]
  rfl

theorem modifyCurrent {f f' : Thread → Thread} (keeps : f' (m.current.onto g) = (f m.current).onto g) :
    (m.onto g).modifyCurrent f' = (m.modifyCurrent f).onto g := by
  have running := h.running
  unfold Machine.modifyCurrent
  rw [running_onto, running]
  apply modifyThread_onto
  rw [← running]
  exact keeps

theorem thread : (m.thread g.thread).Stands g := by
  rw [← h.running]
  exact h.current

theorem pushResults (want : Nat) (vs : List Value) :
    (m.onto g).pushResults want vs = (m.pushResults want vs).onto g :=
  pushResultsOn_onto h.thread.stack m.running want vs

theorem push (v : Value) : (m.onto g).push v = (m.push v).onto g := h.pushResults 1 [v]

theorem drop {n : Nat} (own : g.base + n ≤ m.current.stack.size) :
    (m.onto g).drop n = (m.drop n).onto g :=
  h.modifyCurrent (Thread.take_onto own)

theorem top {n : Nat} (pos : 1 ≤ n) (own : g.base + n ≤ m.current.stack.size) :
    (m.onto g).top n = m.top n := by
  unfold Machine.top
  rw [h.current_onto, Thread.cell?_onto pos own, store_onto]

theorem spread {n : Nat} (own : g.base + n ≤ m.current.stack.size) : (m.onto g).spread n = m.spread n := by
  unfold Machine.spread
  rw [h.current_onto, Thread.extract_onto own, store_onto]

/-- There is one more thread. -/
theorem withThread (c : Closure) :
    { m.onto g with threads := (m.onto g).threads.push (.ofClosure c) } =
      Machine.onto g { m with threads := m.threads.push (.ofClosure c) } := by
  have inside : g.thread < m.threads.size := h.running ▸ h.inside
  simp only [onto, modifyThread, mk.injEq, true_and, and_true]
  apply Array.ext_getElem?
  intro i
  simp only [Array.getElem?_push, Array.getElem?_modify, Array.size_modify]
  split
  · rw [if_neg (by omega)]
  · rfl

theorem moreThreads (c : Closure) :
    ({ m with threads := m.threads.push (.ofClosure c) } : Machine).Stands g := by
  have same : Machine.current { m with threads := m.threads.push (.ofClosure c) } = m.current := by
    simp only [Machine.current, Machine.thread, Array.getElem?_push, if_neg h.inside.ne]
  exact ⟨h.running, by simpa using Nat.lt_succ_of_lt h.inside, same ▸ h.current⟩

/-- The thread was changed, and still stands. -/
theorem modified {f : Thread → Thread} (stands : (f m.current).Stands g) :
    (m.modifyCurrent f).Stands g := by
  refine ⟨h.running, by simpa using h.inside, ?_⟩
  rw [current_modifyCurrent h.inside]
  exact stands

theorem note (want : Nat) : (m.onto g).modifyCurrent (·.pushHandler want) =
    (m.modifyCurrent (·.pushHandler want)).onto g :=
  h.modifyCurrent (f := (·.pushHandler want)) (Thread.pushHandler_onto h.current want)

theorem alone {m' : Machine} (alone : m.Alone m') (same : m'.current = m.current) : m'.Stands g := by
  refine ⟨alone.running.trans h.running, ?_, same ▸ h.current⟩
  rw [alone.running]
  exact Nat.lt_of_lt_of_le h.inside alone.size

theorem withStore (s : Store) : ({ m with store := s } : Machine).Stands g :=
  ⟨h.running, h.inside, h.current⟩

/-- A function of the host does not touch the threads. -/
theorem callHost {id : Nat} {args results : List Value} {m' : Machine}
    (called : Exec.callHost id args m = .ok results m') : m'.Stands g := by
  simp only [Exec.callHost, Exec.bind_apply, Exec.get_apply] at called
  cases found : m.hosts[id]? with
  | none =>
    rw [found] at called
    cases called
    exact h
  | some f =>
    simp only [found, Exec.onStore_apply] at called
    rcases ran : (f.run args).run.run m.store with ⟨_ | vs, s⟩
    · rw [ran] at called
      cases called
    · rw [ran] at called
      cases called
      exact h.withStore s

/-- A protected call notes the state. -/
theorem noted (want : Nat) : (m.modifyCurrent (·.pushHandler want)).Stands g :=
  h.modified ⟨h.current.stack, h.current.frames, Nat.le_succ_of_le h.current.handlers⟩

/-- Taking operands away leaves the frame where it stands. -/
theorem dropped {n : Nat} (own : g.base + n ≤ m.current.stack.size) : (m.drop n).Stands g := by
  refine h.modified ⟨?_, h.current.frames, h.current.handlers⟩
  rw [Array.size_extract]
  omega

theorem pushed (v : Value) : (m.push v).Stands g := by
  rw [push_eq_pushResults]
  refine ⟨h.running, by simpa [Machine.pushResults] using h.inside, ?_⟩
  rw [current_pushResults h.inside]
  refine ⟨?_, h.current.frames, h.current.handlers⟩
  have low := h.current.stack
  simp only [Thread.withCells, Array.size_append]
  omega

/-- What is left above the base. -/
theorem left (n : Nat) {k : Nat} (own : g.base + (n + k) ≤ m.current.stack.size) :
    g.base + k ≤ (m.drop n).current.stack.size := by
  rw [current_drop h.inside]
  simp only [Array.take_eq_extract, Array.size_extract]
  omega

end Stands

end Machine

theorem Exec.enter_apply (c : Closure) (args : List Value) (want n : Nat) (m : Machine) :
    enter c args want n m =
      if m.AtLimit then .error .stackOverflow m
      else .ok () ((m.modifyCurrent (Thread.framed c want n)).push (.multi args)) := by
  have framed : (m.modifyCurrent fun t =>
      { t with captures := t.captures ++ c.upvalues
               frames := { closure := c, ip := 0, base := m.current.stack.size
                           captureBase := m.current.captures.size, want, protections := n } :: t.frames }) =
      m.modifyCurrent (Thread.framed c want n) :=
    Machine.modifyThread_congr rfl
  unfold enter
  simp only [bind_apply, get_apply]
  split
  · rename_i limit
    rw [if_pos (show m.AtLimit from limit)]
    rfl
  · rename_i free
    rw [if_neg (show ¬m.AtLimit from free)]
    simp only [bind_apply, set_apply, push_apply, framed]

theorem Exec.threadArgument_state {function : String} {args : List Value} {id : Nat} {m m' : Machine}
    (found : threadArgument function args m = .ok id m') : m = m' := by
  rcases threadArgument_cases function args m with ⟨_, ok, -⟩ | ⟨_, failed⟩
  · rw [ok] at found
    cases found
    rfl
  · rw [failed] at found
    cases found

theorem Exec.ofExcept_state {α : Type} {e : Except Fault α} {a : α} {m m' : Machine}
    (found : ofExcept e m = .ok a m') : m = m' := by
  cases e with
  | ok => cases found; rfl
  | error => cases found

/-! ## Actions -/

namespace Blind

variable {α β : Type} {g : Ground} {m : Machine}

theorem bind {x : Exec α} {f : α → Exec β} (first : Blind g x m)
    (second : ∀ a m', x m = .ok a m' → Blind g (f a) m') : Blind g (x >>= f) m := by
  unfold Blind at first ⊢
  rw [Exec.bind_apply, Exec.bind_apply, first]
  cases result : x m with
  | ok a m' => exact second a m' result
  | error fault m' => rfl

theorem pure (a : α) : Blind g (Pure.pure a : Exec α) m := rfl

theorem throw (fault : Fault) : Blind g (MonadExcept.throw fault : Exec α) m := rfl

theorem ofExcept (e : Except Fault α) : Blind g (Exec.ofExcept e) m := by
  cases e <;> rfl

theorem onStore (action : HostAction α) : Blind g (Exec.onStore action) m := by
  unfold Blind
  rw [Exec.onStore_apply, Exec.onStore_apply, Machine.store_onto]
  rcases action.run.run m.store with ⟨_ | _, s⟩ <;> rfl

theorem setCell (cell : Nat) (v : Value) : Blind g (Exec.setCell cell v) m := rfl

theorem callHost (id : Nat) (args : List Value) : Blind g (Exec.callHost id args) m := by
  unfold Blind Exec.callHost
  simp only [Exec.bind_apply, Exec.get_apply, Machine.hosts_onto]
  cases m.hosts[id]? with
  | none => rfl
  | some f => exact onStore (f.run args)

theorem threadArgument (function : String) (args : List Value) :
    Blind g (Exec.threadArgument function args) m := by
  unfold Exec.threadArgument
  cases args.head? with
  | none => rfl
  | some v => cases v <;> rfl

section

variable (h : m.Stands g)
include h

theorem push (v : Value) : Blind g (Exec.push v) m := by
  unfold Blind
  rw [Exec.push_apply, Exec.push_apply, h.push]
  rfl

theorem pushResults (want : Nat) (vs : List Value) : Blind g (Exec.pushResults want vs) m := by
  unfold Blind
  rw [Exec.pushResults_apply, Exec.pushResults_apply, h.pushResults]
  rfl

theorem pop (own : g.base + 1 ≤ m.current.stack.size) : Blind g Exec.pop m := by
  unfold Blind
  rw [Exec.pop_apply, Exec.pop_apply, h.top (Nat.le_refl 1) own, h.drop own]
  rfl

theorem popSpread {n : Nat} (own : g.base + n ≤ m.current.stack.size) : Blind g (Exec.popSpread n) m := by
  unfold Blind
  rw [Exec.popSpread_eq, Exec.popSpread_eq, h.spread own, h.drop own]
  rfl

theorem slot {n : Nat} (pos : 1 ≤ n) (own : g.base + n ≤ m.current.stack.size) :
    Blind g (Exec.slot n) m := by
  obtain ⟨cell, found⟩ := Thread.cell?_isSome (t := m.current) (n := n) pos (by omega)
  have found' : (m.onto g).current.cell? n = some cell := by
    rw [h.current_onto, Thread.cell?_onto pos own, found]
  unfold Blind
  rw [Exec.slot_apply found, Exec.slot_apply found']
  rfl

theorem peek {n : Nat} (pos : 1 ≤ n) (own : g.base + n ≤ m.current.stack.size) :
    Blind g (Exec.peek n) m :=
  (slot h pos own).bind fun _ _ _ => rfl

theorem enter (c : Closure) (args : List Value) (want protections : Nat) :
    Blind g (Exec.enter c args want protections) m := by
  have limit : (m.onto g).AtLimit ↔ m.AtLimit := by
    unfold Machine.AtLimit
    rw [h.current_onto, Thread.length_frames_onto, m.current.size_onto h.current]
    exact or_congr Iff.rfl Nat.add_le_add_iff_right
  unfold Blind
  rw [Exec.enter_apply, Exec.enter_apply]
  simp only [limit]
  split
  · rfl
  · have stands : (m.modifyCurrent (Thread.framed c want protections)).Stands g :=
      h.modified ⟨h.current.stack, Nat.le_succ_of_le h.current.frames, h.current.handlers⟩
    rw [h.modifyCurrent (Thread.framed_onto h.current c want protections), stands.push]
    rfl

/-! ## Calls -/

theorem create (args : List Value) (want : Nat) : Blind g (Exec.create args want) m := by
  unfold Blind
  simp only [Exec.create, Exec.bind_apply, Exec.get_apply]
  cases args.head? with
  | none => rfl
  | some v =>
    cases v with
    | closure id =>
      simp only [Machine.store_onto]
      cases m.store.closures[id]? with
      | none => rfl
      | some c =>
        simp only [Exec.bind_apply, Exec.set_apply, Exec.pushResults_apply]
        have pushed := (h.moreThreads c).pushResults want [.thread m.threads.size]
        rw [← h.withThread c] at pushed
        rw [Machine.size_onto]
        exact congrArg (EStateM.Result.ok ()) pushed
    | _ => rfl

/-- Another thread is given values and runs. -/
theorem switch {id : Nat} (other : id ≠ g.thread) (want : Nat) (vs : List Value) (waiting : List Nat) :
    { ((m.onto g).modifyCurrent fun t => { t with awaiting := want }).deliver id vs with
        running := id, waiting } =
      Machine.onto g { (m.modifyCurrent fun t => { t with awaiting := want }).deliver id vs with
        running := id, waiting } := by
  have stands : (m.modifyCurrent fun t => { t with awaiting := want }).Stands g :=
    h.modified ⟨h.current.stack, h.current.frames, h.current.handlers⟩
  rw [h.modifyCurrent (f := fun t => { t with awaiting := want }) rfl,
    Machine.deliver_onto stands.thread.stack other]
  exact Machine.withRunning_onto ..

theorem resume (args : List Value) (want : Nat) : Blind g (Exec.resume args want) m := by
  unfold Exec.resume
  refine (threadArgument "coroutine.resume" args).bind fun id m' found => ?_
  obtain rfl := Exec.threadArgument_state found
  unfold Blind
  simp only [Exec.bind_apply, Exec.get_apply]
  by_cases busy : m.running = id ∨ m.waiting.contains id = true
  · have busy' : (m.onto g).running = id ∨ (m.onto g).waiting.contains id = true := busy
    simp only [if_pos busy, if_pos busy']
    rfl
  · have busy' : ¬((m.onto g).running = id ∨ (m.onto g).waiting.contains id = true) := busy
    have other : id ≠ g.thread := by
      rw [← h.running]
      exact fun same => busy (.inl same.symm)
    simp only [if_neg busy, if_neg busy', Machine.thread_onto_ne other, Machine.size_onto]
    by_cases missing : m.threads.size ≤ id
    · simp only [if_pos missing]
      rfl
    · simp only [if_neg missing]
      by_cases dead : (m.thread id).isDead = true
      · simp only [if_pos dead]
        exact pushResults h want _
      · simp only [if_neg dead, Exec.set_apply, Machine.running_deliver, Machine.waiting_deliver,
          Machine.running_modifyCurrent, Machine.waiting_modifyCurrent]
        exact congrArg (EStateM.Result.ok ()) (switch h other want _ _)

theorem yield (distinct : (m.running :: m.waiting).Nodup) (args : List Value) (want : Nat) :
    Blind g (Exec.yield args want) m := by
  unfold Blind Exec.yield
  simp only [Exec.bind_apply, Exec.get_apply, Machine.waiting_onto]
  cases waiting : m.waiting with
  | nil => rfl
  | cons resumer rest =>
    have other : resumer ≠ g.thread := by
      rintro rfl
      rw [waiting, h.running] at distinct
      simp at distinct
    simp only [Exec.set_apply, Machine.deliver_control]
    rw [switch h other]
    rfl

theorem status (protectedCall : Exec Unit) (args : List Value) (want : Nat) :
    Blind g (Exec.callCoreWith protectedCall .status args want) m := by
  refine (threadArgument "coroutine.status" args).bind fun id m' found => ?_
  obtain rfl := Exec.threadArgument_state found
  unfold Blind
  simp only [Exec.bind_apply, Exec.get_apply, Machine.status_onto]
  exact pushResults h want _

theorem dostring (args : List Value) (want : Nat) : Blind g (Exec.dostring args want) m := by
  unfold Exec.dostring
  cases args.head? with
  | none => rfl
  | some v =>
    cases v with
    | string text =>
      refine (ofExcept _).bind fun unit m' compiled => ?_
      obtain rfl := Exec.ofExcept_state compiled
      exact enter h ⟨unit, #[]⟩ [] want 0
    | _ => rfl

/-- Core functions other than the protected call. -/
theorem callCoreWith (distinct : (m.running :: m.waiting).Nodup) {f : CoreFunction} (other : f ≠ .pcall)
    (protectedCall : Exec Unit) (args : List Value) (want : Nat) :
    Blind g (Exec.callCoreWith protectedCall f args want) m := by
  cases f with
  | pcall => exact absurd rfl other
  | create => exact create h args want
  | resume => exact resume h args want
  | yield => exact yield h distinct args want
  | status => exact status h protectedCall args want
  | dostring => exact dostring h args want

end

end Blind

/-- A call takes nothing from its thread; if it is over at once its results are there. -/
theorem Machine.Outcome.grows {m m' : Machine} {want : Nat} {reply : Reply} {u : Unit} (sane : m.Sane)
    (h : m.Outcome want reply (.ok u m')) :
    m.running < m'.threads.size ∧
      m.current.stack.size ≤ (m'.thread m.running).stack.size ∧
      m.current.frames.length ≤ (m'.thread m.running).frames.length ∧
      m.current.handlers.length ≤ (m'.thread m.running).handlers.length ∧
      (m'.running = m.running → (m'.thread m.running).frames.length ≤ m.current.frames.length →
        m.current.stack.size + slots want ≤ (m'.thread m.running).stack.size) := by
  have inside := sane.running_lt
  cases h with
  | @values k vs alone same =>
    have within : k.running < k.threads.size := alone.running ▸ Nat.lt_of_lt_of_le inside alone.size
    have thread : (k.pushResults want vs).thread m.running =
        m.current.withCells k.store.cells.size (slots want) := by
      rw [← alone.running, ← same]
      exact thread_pushResultsOn_self within
    have size : (k.pushResults want vs).threads.size = k.threads.size := size_pushResultsOn
    rw [thread, size]
    simp only [Thread.withCells, Array.size_append, Array.size_range']
    have := alone.size
    omega
  | @entered k n c args entered =>
    obtain ⟨alone, -, cell, hs, -, -, thread⟩ := entered
    have thread : m'.thread m.running = m.current.entered c cell want n hs := by
      rw [← thread, ← alone.running]
      rfl
    rw [thread]
    simp only [Thread.entered, Array.size_push, List.length_cons, List.length_append]
    have := alone.size
    omega
  | blocked switched =>
    obtain ⟨hs, -, caller⟩ := switched.caller
    have other := switched.switch.ne sane.distinct
    rw [caller, switched.size]
    simp only [List.length_append]
    refine ⟨inside, Nat.le_refl _, Nat.le_refl _, Nat.le_add_left _ _, fun same => absurd same other⟩

namespace Blind

variable {g : Ground} {m : Machine}

/-- The machine whose handlers have learnt of one more protected call, if there are any new ones. -/
def wrap (m : Machine) (caller handlers : Nat) : Machine :=
  if handlers < (m.thread caller).handlers.length then
    m.modifyThread caller (·.modifyHandler fun h => { h with wraps := h.wraps + 1 })
  else m

theorem wrap_onto (inside : g.thread < m.threads.size) (handlers : Nat) :
    wrap (m.onto g) g.thread handlers = (wrap m g.thread handlers).onto g := by
  unfold wrap
  rw [Machine.thread_onto_self inside, Thread.length_handlers_onto]
  split
  · exact Machine.modifyThread_onto (Thread.modifyHandler_onto fun _ _ => rfl)
  · rfl

theorem wrap_thread (inside : g.thread < m.threads.size) (handlers : Nat) :
    (wrap m g.thread handlers).running = m.running ∧
      (wrap m g.thread handlers).threads.size = m.threads.size ∧
      ∃ hs, hs.length = (m.thread g.thread).handlers.length ∧
        (wrap m g.thread handlers).thread g.thread = { m.thread g.thread with handlers := hs } := by
  unfold wrap
  split
  · refine ⟨rfl, Machine.size_modifyThread, ?_⟩
    rw [Machine.thread_modifyThread_self inside]
    exact Thread.modifyHandler_eq _ _
  · exact ⟨rfl, rfl, _, rfl, rfl⟩

/-- The end of a protected call that was made by the thread on the ground. -/
theorem settle {frames handlers : Nat} (inside : g.thread < m.threads.size)
    (stands : (m.thread g.thread).Stands g)
    (handled : g.handlers + 1 ≤ (m.thread g.thread).handlers.length)
    (finished : m.running = g.thread → (m.thread g.thread).frames.length ≤ frames →
      g.base + 1 ≤ (m.thread g.thread).stack.size) (want : Nat) :
    (m.onto g).settle g.thread frames handlers want (m.onto g) =
      g.result (m.settle g.thread frames handlers want m) := by
  obtain ⟨running, size, hs, length, thread⟩ := wrap_thread inside handlers
  have moved := wrap_onto inside handlers
  unfold wrap at moved running size thread
  unfold Machine.settle
  rw [moved]
  generalize (if handlers < (m.thread g.thread).handlers.length then
    m.modifyThread g.thread (·.modifyHandler fun h => { h with wraps := h.wraps + 1 })
    else m) = w at running size thread
  have inside : g.thread < w.threads.size := size ▸ inside
  rw [Machine.running_onto, Machine.thread_onto_self inside, Thread.length_frames_onto]
  split
  · rw [Exec.set_apply, Exec.set_apply, Machine.modifyThread_onto (f := fun t =>
      { t with awaiting := want, awaitingProtections := t.awaitingProtections + 1 }) rfl]
    rfl
  · rename_i here
    have here : w.running = g.thread := not_not.1 here
    split
    · rw [Exec.set_apply, Exec.set_apply, Machine.modifyThread_onto (f := fun t =>
        t.modifyFrame fun f => { f with want, protections := f.protections + 1 })
        (Thread.modifyFrame_onto fun _ _ => rfl)]
      rfl
    · rename_i flat
      have current : w.current = { m.thread g.thread with handlers := hs } := by
        rw [← thread, ← here]
        rfl
      have standing : w.Stands g := by
        refine ⟨here, here ▸ inside, ?_⟩
        rw [current]
        exact ⟨stands.stack, stands.frames, length ▸ stands.handlers⟩
      have own : g.base + 1 ≤ w.current.stack.size := by
        rw [thread] at flat
        rw [current]
        exact finished (running ▸ here) (Nat.le_of_not_lt flat)
      have handled : g.handlers + 1 ≤ w.current.handlers.length := by
        rw [current]
        show _ ≤ hs.length
        omega
      have dropped := standing.dropped own
      have freed : Thread.Stands g { (w.drop 1).current with handlers := (w.drop 1).current.handlers.drop 1 } := by
        refine ⟨dropped.current.stack, dropped.current.frames, ?_⟩
        rw [List.length_drop, Machine.current_drop standing.inside]
        exact Nat.le_sub_of_add_le handled
      simp only [Exec.bind_apply, Exec.set_apply, Exec.popSpread_eq, Exec.modify_apply,
        Exec.pushResults_apply, standing.spread own, standing.drop own]
      rw [dropped.modifyCurrent (f := fun t => { t with handlers := t.handlers.drop 1 }),
        (dropped.modified freed).pushResults]
      · rfl
      · simp only [Thread.onto, raiseAbove_drop]

/-- A call under protection. -/
theorem guarded (h : m.Stands g) (sane : m.Sane) {action : Exec Unit} (want : Nat)
    (blind : Blind g action (m.modifyCurrent (·.pushHandler want)))
    (outcome : ∃ reply, (m.modifyCurrent (·.pushHandler want)).Outcome 0 reply
      (action (m.modifyCurrent (·.pushHandler want)))) :
    Blind g (Exec.guarded want action) m := by
  have stands := h.noted want
  have sane' := sane.alone (.modifyCurrent sane (·.pushHandler want))
  unfold Blind
  simp only [Exec.guarded, Exec.bind_apply, Exec.modify_apply, Exec.get_apply, h.note want]
  rw [blind, stands.current_onto, Thread.length_frames_onto, Thread.length_handlers_onto]
  obtain ⟨reply, out⟩ := outcome
  cases result : action (m.modifyCurrent (·.pushHandler want)) with
  | error fault m' => rfl
  | ok u m' =>
    rw [result] at out
    obtain ⟨inside, stack, frames, handlers, finished⟩ := out.grows sane'
    have running : (m.modifyCurrent (·.pushHandler want)).running = g.thread := h.running
    rw [running] at inside stack frames handlers finished
    have current : (m.modifyCurrent (·.pushHandler want)).current = m.current.pushHandler want :=
      Machine.current_modifyCurrent h.inside
    have grown : g.handlers + 1 ≤ (m'.thread g.thread).handlers.length := by
      refine Nat.le_trans ?_ handlers
      rw [current]
      exact Nat.succ_le_succ h.current.handlers
    simp only [Ground.result, Machine.running_onto, running]
    refine settle inside ⟨Nat.le_trans stands.current.stack stack,
      Nat.le_trans stands.current.frames frames, Nat.le_of_succ_le grown⟩ grown ?_ want
    intro same few
    exact Nat.le_trans (Nat.add_le_add_right stands.current.stack 1) (finished same few)

/-- The protected call. -/
theorem pcall (h : m.Stands g) (sane : m.Sane) (args : List Value) (want : Nat) :
    Blind g (Exec.pcall args want) m := by
  induction args generalizing m want with
  | nil => exact pushResults h want _
  | cons callee rest ih =>
    have stands := h.noted want
    have sane' := sane.alone (.modifyCurrent sane (·.pushHandler want))
    by_cases nested : callee = .core .pcall
    · subst nested
      obtain ⟨reply, out, -⟩ := Exec.pcall_outcome sane' rest 0
      rw [Exec.pcall]
      exact guarded h sane want (ih stands sane' 0) ⟨reply, out⟩
    · rw [Exec.pcall]
      case x_2 => exact nested
      unfold Blind
      simp only [Exec.bind_apply, Exec.get_apply]
      rw [show (m.onto g).callTarget callee rest = m.callTarget callee rest from rfl]
      cases m.callTarget callee rest with
      | error fault => exact pushResults h want _
      | ok r =>
        obtain ⟨v, given⟩ := r
        cases v with
        | closure id =>
          simp only [Exec.bind_apply, Exec.get_apply, Machine.store_onto]
          cases m.store.closures[id]? with
          | none => exact pushResults h want _
          | some c =>
            simp only [Exec.bind_apply, Exec.modify_apply, h.note want]
            exact enter stands c given want 1
        | host id name =>
          simp only [Exec.bind_apply, Exec.get_apply]
          rw [callHost (m := m) id given]
          obtain ⟨m', alone, same, which⟩ := Exec.callHost_cases sane id given
          have after := h.alone alone same
          rcases which with ⟨vs, ok⟩ | ⟨fault, failed⟩
          · rw [ok]
            exact pushResults after want _
          · rw [failed]
            exact pushResults after want _
        | core f =>
          by_cases itself : f = .pcall
          · subst itself
            exact guarded h sane want (throw _) ⟨_, .failed sane' .stackOverflow⟩
          · obtain ⟨reply, out, -⟩ := Exec.callCoreWith_outcome sane' itself (MonadExcept.throw .stackOverflow)
              given 0
            exact guarded h sane want (callCoreWith stands sane'.distinct itself _ given 0) ⟨reply, out⟩
        | _ => exact pushResults h want _

/-- A call does the same on other ground if the core function that it comes to does, if it comes to
one. -/
theorem call_of_core (h : m.Stands g) {callee : Value} {args : List Value} {want : Nat}
    (core : ∀ f given, m.callTarget callee args = .ok (.core f, given) →
      Blind g (Exec.callCore f given want) m) : Blind g (Exec.call callee args want) m := by
  unfold Blind
  simp only [Exec.call, Exec.bind_apply, Exec.get_apply]
  rw [show (m.onto g).callTarget callee args = m.callTarget callee args from rfl]
  cases target : m.callTarget callee args with
  | error fault => rfl
  | ok r =>
    obtain ⟨v, given⟩ := r
    simp only [Exec.ofExcept_ok]
    cases v with
    | closure id =>
      simp only [Exec.bind_apply, Exec.get_apply, Machine.store_onto]
      cases m.store.closures[id]? with
      | none => rfl
      | some c => exact enter h c given want 0
    | host id name =>
      exact (callHost id given).bind fun results k called =>
        pushResults (h.callHost called) want _
    | core f => exact core f given target
    | _ => rfl

theorem call (h : m.Stands g) (sane : m.Sane) (callee : Value) (args : List Value) (want : Nat) :
    Blind g (Exec.call callee args want) m := by
  refine call_of_core h fun f given _ => ?_
  by_cases itself : f = .pcall
  · subst itself
    exact pcall h sane given want
  · exact callCoreWith h sane.distinct itself _ given want

theorem callMetamethod {event : String} {lhs rhs : Value}
    (calls : ∀ handler, m.handler? event lhs rhs = some handler →
      Blind g (Exec.call handler [lhs, rhs] 1) m) (fault : Fault) :
    Blind g (Exec.callMetamethod event lhs rhs fault) m := by
  unfold Blind
  simp only [Exec.callMetamethod, Exec.bind_apply, Exec.get_apply]
  rw [show (m.onto g).metamethod lhs event = m.metamethod lhs event from rfl,
    show (m.onto g).metamethod rhs event = m.metamethod rhs event from rfl]
  simp only [Machine.handler?] at calls
  cases left : m.metamethod lhs event with
  | error fault' => rfl
  | ok first =>
    simp only [left] at calls
    simp only [Exec.ofExcept_ok]
    by_cases missing : first.isNil = true
    · simp only [if_pos missing, Exec.bind_apply] at calls ⊢
      cases right : m.metamethod rhs event with
      | error fault' => rfl
      | ok second =>
        simp only [right] at calls
        simp only [Exec.ofExcept_ok]
        by_cases missing' : second.isNil = true
        · simp only [if_pos missing']
          rfl
        · simp only [if_neg missing'] at calls ⊢
          exact calls second rfl
    · simp only [if_neg missing, Exec.bind_apply, Exec.pure_apply] at calls ⊢
      exact calls first rfl

/-- The rest of a comparison. -/
theorem judge (h : m.running = g.thread → m.Stands g) {frames : Nat}
    (finished : m.running = g.thread → m.current.frames.length ≤ frames →
      g.base + 1 ≤ m.current.stack.size) : Blind g (Exec.judge g.thread frames) m := by
  unfold Blind
  simp only [Exec.judge, Exec.bind_apply, Exec.get_apply]
  by_cases here : m.running = g.thread
  · have stands := h here
    have here' : (m.onto g).running = g.thread := here
    simp only [if_pos here, if_pos here']
    rw [stands.current_onto, Thread.length_frames_onto]
    by_cases deeper : frames < m.current.frames.length
    · simp only [if_pos deeper, Exec.set_apply]
      rw [stands.modifyCurrent (f := (·.modifyFrame ({ · with isCondition := true })))
        (Thread.modifyFrame_onto fun _ _ => rfl)]
      rfl
    · have own := finished here (Nat.le_of_not_lt deeper)
      simp only [if_neg deeper]
      refine (pop stands own).bind fun v m' popped => ?_
      rw [Exec.pop_apply] at popped
      cases popped
      exact push (stands.dropped own) _
  · have here' : ¬(m.onto g).running = g.thread := here
    simp only [if_neg here, if_neg here']
    rfl

end Blind

end ScriptEngine
