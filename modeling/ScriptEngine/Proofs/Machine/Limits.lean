import ScriptEngine.Proofs.Machine.Restoration
import ScriptEngine.Proofs.Machine.Safety
import ScriptEngine.Proofs.Machine.Session

/-!
# Limits

A closure is entered only while its thread is below both limits, the one on frames and the one on stack cells;
nothing else checks them. Yet every thread keeps within them (`Thread.Within`): all other frames are those of
coroutines that have just been made, and handlers go back to frames that were there. This holds of any code
(`Moves.within`).

The cells above the base of a frame are not checked at all. For compiled code they are as many as the verifier
records, so the stack of a thread exceeds the limit by no more than the largest depth of the units that run
(`Reachable.stack_le`).
-/

set_option linter.dupNamespace false

namespace ScriptEngine

/-- The thread keeps within the limits. -/
structure Thread.Within (c : Config) (t : Thread) : Prop where
  depth : t.frames.length ≤ c.maxCallDepth
  bases : ∀ f ∈ t.frames, f.base < c.maxStack
  /-- What is left of a thread that has ended. -/
  ended : t.frames = [] → t.stack.size ≤ c.maxStack - 1

namespace Thread.Within

variable {c : Config} {t t' : Thread}

theorem empty (c : Config) : Within c {} := ⟨Nat.zero_le _, by simp, fun _ => Nat.zero_le _⟩

/-- Of the frames only the bases matter, and there may be fewer. -/
theorem of_bases (within : t.Within c) (bases : List.Sublist (t'.frames.map Frame.base) (t.frames.map Frame.base))
    (ended : t'.frames = [] → t'.stack.size ≤ c.maxStack - 1) : t'.Within c where
  depth := by
    have fewer := bases.length_le
    rw [List.length_map, List.length_map] at fewer
    exact fewer.trans within.depth
  bases f mem := by
    obtain ⟨g, mem', same⟩ := List.mem_map.1 (bases.subset (List.mem_map_of_mem mem))
    exact same ▸ within.bases g mem'
  ended := ended

/-- A thread that has a frame leaves room for one. -/
theorem room (within : t.Within c) (alive : t.frames ≠ []) : 0 < c.maxCallDepth ∧ 0 < c.maxStack := by
  obtain ⟨f, rest, frames⟩ := List.exists_cons_of_ne_nil alive
  have depth := within.depth
  have base := within.bases f (by simp [frames])
  rw [frames, List.length_cons] at depth
  omega

theorem ofClosure (room : 0 < c.maxCallDepth ∧ 0 < c.maxStack) (closure : Closure) : (ofClosure closure).Within c :=
  ⟨room.1, by simpa [Thread.ofClosure] using room.2, by simp [Thread.ofClosure]⟩

end Thread.Within

/-- A change within the innermost frame keeps its base if it says nothing of it. -/
theorem Thread.bases_modifyFrame (t : Thread) {f : Frame → Frame} (base : ∀ g, (f g).base = g.base) :
    (t.modifyFrame f).frames.map Frame.base = t.frames.map Frame.base := by
  unfold modifyFrame
  cases frames : t.frames with
  | nil => rw [frames]
  | cons g rest => simp only [List.map_cons, base]

theorem Thread.frames_modifyHandler (t : Thread) (f : Handler → Handler) : (t.modifyHandler f).frames = t.frames := by
  unfold modifyHandler
  split <;> rfl

namespace Machine

/-- All threads keep within the limits, and these are `c`. -/
structure Within (c : Config) (m : Machine) : Prop where
  config : m.config = c
  threads : ∀ id, (m.thread id).Within c

/-- A call is under way: the threads that run or wait have frames. -/
structure Working (c : Config) (m : Machine) : Prop extends Within c m where
  alive : ∀ id ∈ m.running :: m.waiting, (m.thread id).frames ≠ []

variable {c : Config} {m m' : Machine} {id : Nat} {f : Thread → Thread}

theorem Within.of_threads (within : m.Within c) (config : m'.config = m.config) (threads : m'.threads = m.threads) :
    m'.Within c :=
  ⟨config.trans within.config, fun id => by rw [thread, threads]; exact within.threads id⟩

/-- A thread that is not there cannot be changed. -/
theorem thread_modifyThread (m : Machine) (id k : Nat) (f : Thread → Thread) :
    (m.modifyThread id f).thread k = m.thread k ∨
      k = id ∧ (m.modifyThread id f).thread k = f (m.thread id) := by
  by_cases itself : k = id
  · subst itself
    rcases Nat.lt_or_ge k m.threads.size with inside | outside
    · exact .inr ⟨rfl, thread_modifyThread_self inside⟩
    · exact .inl (by rw [thread_of_outside outside, thread_of_outside (by rwa [size_modifyThread])])
  · exact .inl (thread_modifyThread_ne itself)

theorem Within.modifyThread (within : m.Within c) (changed : (f (m.thread id)).Within c) :
    (m.modifyThread id f).Within c := by
  refine ⟨within.config, fun k => ?_⟩
  rcases m.thread_modifyThread id k f with same | ⟨-, other⟩
  · rw [same]
    exact within.threads k
  · rw [other]
    exact changed

theorem frames_modifyThread (same : (f (m.thread id)).frames = (m.thread id).frames) (k : Nat) :
    ((m.modifyThread id f).thread k).frames = (m.thread k).frames := by
  rcases m.thread_modifyThread id k f with unchanged | ⟨rfl, changed⟩
  · rw [unchanged]
  · rw [changed, same]

theorem frames_pushResultsOn (m : Machine) (id want : Nat) (vs : List Value) (k : Nat) :
    ((m.pushResultsOn id want vs).thread k).frames = (m.thread k).frames := by
  rw [pushResultsOn_eq]
  exact frames_modifyThread (f := (·.withCells m.store.cells.size (slots want))) rfl k

theorem frames_deliver (m : Machine) (id : Nat) (vs : List Value) (k : Nat) :
    ((m.deliver id vs).thread k).frames = (m.thread k).frames := by
  unfold deliver
  rw [frames_pushResultsOn]
  exact frames_modifyThread rfl k

theorem Within.pushResultsOn (within : m.Within c) (alive : (m.thread id).frames ≠ []) (want : Nat)
    (vs : List Value) : (m.pushResultsOn id want vs).Within c := by
  have given : (m.modifyThread id (·.withCells m.store.cells.size (slots want))).Within c :=
    within.modifyThread ((within.threads id).of_bases (.refl _) fun ended => absurd ended alive)
  rw [pushResultsOn_eq]
  exact ⟨given.config, given.threads⟩

theorem Within.deliver (within : m.Within c) (alive : (m.thread id).frames ≠ []) (vs : List Value) :
    (m.deliver id vs).Within c := by
  unfold Machine.deliver
  refine Within.pushResultsOn (within.modifyThread ?_) ?_ _ _
  · exact (within.threads id).of_bases (.refl _) fun ended => absurd ended alive
  · rw [frames_modifyThread rfl]
    exact alive

/-- A frame on top of the others, if the limits allow it. -/
theorem Within.framed (within : m.Within c) (free : ¬m.AtLimit) (closure : Closure) (want n : Nat) :
    (m.modifyCurrent (Thread.framed closure want n)).Within c := by
  have below : m.current.frames.length < c.maxCallDepth ∧ m.current.stack.size < c.maxStack := by
    rw [AtLimit, within.config] at free
    omega
  refine within.modifyThread ⟨below.1, fun g mem => ?_, by simp [Thread.framed]⟩
  rcases List.mem_cons.1 mem with rfl | mem
  · exact below.2
  · exact (within.threads m.running).bases g mem

namespace Working

variable (working : m.Working c)
include working

theorem room : 0 < c.maxCallDepth ∧ 0 < c.maxStack :=
  (working.threads m.running).room (working.alive m.running List.mem_cons_self)

/-- Globals and store do not matter. -/
theorem of_threads (config : m'.config = m.config) (threads : m'.threads = m.threads)
    (running : m'.running = m.running) (waiting : m'.waiting = m.waiting) : m'.Working c := by
  refine ⟨working.toWithin.of_threads config threads, fun id mem => ?_⟩
  rw [running, waiting] at mem
  rw [thread, threads]
  exact working.alive id mem

/-- A thread may change if its frames stay where they are, and if it has none its stack too. -/
theorem modifyThread (bases : (f (m.thread id)).frames.map Frame.base = (m.thread id).frames.map Frame.base)
    (ended : (m.thread id).frames = [] → (f (m.thread id)).stack = (m.thread id).stack) :
    (m.modifyThread id f).Working c := by
  have still : (f (m.thread id)).frames = [] ↔ (m.thread id).frames = [] := by
    rw [← List.map_eq_nil_iff (f := Frame.base), bases, List.map_eq_nil_iff]
  refine ⟨working.toWithin.modifyThread ((working.threads id).of_bases (bases ▸ .refl _) fun none => ?_),
    fun k mem => ?_⟩
  · rw [ended (still.1 none)]
    exact (working.threads id).ended (still.1 none)
  · rcases m.thread_modifyThread id k f with same | ⟨rfl, other⟩
    · rw [same]
      exact working.alive k mem
    · rw [other]
      exact mt still.1 (working.alive k mem)

theorem modifyCurrent (bases : (f m.current).frames.map Frame.base = m.current.frames.map Frame.base) :
    (m.modifyCurrent f).Working c :=
  working.modifyThread bases fun none => absurd none (working.alive m.running List.mem_cons_self)

theorem pushResults (want : Nat) (vs : List Value) : (m.pushResults want vs).Working c := by
  refine ⟨working.toWithin.pushResultsOn (working.alive m.running List.mem_cons_self) want vs, fun id mem => ?_⟩
  rw [Machine.pushResults, frames_pushResultsOn]
  simp only [Machine.pushResults, running_pushResultsOn, waiting_pushResultsOn] at mem
  exact working.alive id mem

theorem push (v : Value) : (m.push v).Working c := working.pushResults 1 [v]

/-- A frame on top of the others, if the limits allow it. -/
theorem framed (free : ¬m.AtLimit) (closure : Closure) (want n : Nat) :
    (m.modifyCurrent (Thread.framed closure want n)).Working c := by
  refine ⟨working.toWithin.framed free closure want n, fun id mem => ?_⟩
  rcases m.thread_modifyThread m.running id (Thread.framed closure want n) with same | ⟨-, entered⟩
  · rw [Machine.modifyCurrent, same]
    exact working.alive id mem
  · rw [Machine.modifyCurrent, entered]
    exact List.cons_ne_nil _ _

/-- A coroutine has been made. -/
theorem create (closure : Closure) :
    ({ m with threads := m.threads.push (.ofClosure closure) } : Machine).Working c := by
  have thread (id : Nat) : ({ m with threads := m.threads.push (.ofClosure closure) } : Machine).thread id =
      if id = m.threads.size then .ofClosure closure else m.thread id := by
    simp only [Machine.thread, Array.getElem?_push]
    split <;> rfl
  refine ⟨⟨working.config, fun id => ?_⟩, fun id mem => ?_⟩ <;> rw [thread] <;> split
  · exact .ofClosure working.room closure
  · exact working.threads id
  · exact List.cons_ne_nil _ _
  · exact working.alive id mem

/-- Control goes to another thread, with values. -/
theorem handOver {rest : List Nat} (alive : ∀ k ∈ id :: rest, (m.thread k).frames ≠ []) (vs : List Value) :
    ({ m with running := id, waiting := rest }.deliver id vs).Working c := by
  have switched : ({ m with running := id, waiting := rest } : Machine).Within c :=
    ⟨working.config, working.threads⟩
  refine ⟨switched.deliver (alive id List.mem_cons_self) vs, fun k mem => ?_⟩
  rw [running_deliver, waiting_deliver] at mem
  rw [frames_deliver]
  exact alive k mem

end Working

end Machine

/-! ## Actions -/

namespace Exec

open Machine (Working)

variable {α β : Type} {c : Config}

/-- While a call is under way the action keeps all threads within the limits, and the call goes on. -/
def Heeds (c : Config) (x : Exec α) : Prop := ∀ m : Machine, m.Working c → (final (x m)).Working c

theorem heeds_pure (a : α) : Heeds c (pure a : Exec α) := fun _ working => working

theorem heeds_throw (fault : Fault) : Heeds c (throw fault : Exec α) := fun _ working => working

theorem heeds_get : Heeds c (get : Exec Machine) := fun _ working => working

theorem heeds_ofExcept (e : Except Fault α) : Heeds c (ofExcept e) := fun _ working => by
  cases e <;> exact working

theorem heeds_bind {x : Exec α} {f : α → Exec β} (first : Heeds c x) (second : ∀ a, Heeds c (f a)) :
    Heeds c (x >>= f) := by
  intro m working
  have between := first m working
  rw [bind_apply]
  cases done : x m with
  | error fault m' =>
    rw [done] at between
    exact between
  | ok a m' =>
    rw [done] at between
    exact second a m' between

theorem heeds_modifyCurrent {f : Thread → Thread}
    (bases : ∀ t : Thread, (f t).frames.map Frame.base = t.frames.map Frame.base) :
    Heeds c (modify (·.modifyCurrent f)) := fun _ working => working.modifyCurrent (bases _)

theorem heeds_pop : Heeds c pop :=
  heeds_bind heeds_get fun _ => heeds_bind (heeds_modifyCurrent fun _ => rfl) fun _ => heeds_pure _

theorem heeds_popSpread (n : Nat) : Heeds c (popSpread n) :=
  heeds_bind heeds_get fun _ => heeds_bind (heeds_modifyCurrent fun _ => rfl) fun _ => heeds_pure _

theorem heeds_push (v : Value) : Heeds c (push v) := fun _ working => working.push v

theorem heeds_pushResults (want : Nat) (vs : List Value) : Heeds c (pushResults want vs) :=
  fun _ working => working.pushResults want vs

theorem heeds_onStore (action : HostAction α) : Heeds c (onStore action) := fun m working => by
  rw [onStore_apply]
  split <;> exact working.of_threads rfl rfl rfl rfl

theorem heeds_slot (offset : Nat) : Heeds c (slot offset) :=
  heeds_bind heeds_get fun m => by
    cases m.current.cell? offset with
    | some cell => exact heeds_pure cell
    | none => exact heeds_throw _

theorem heeds_peek (offset : Nat) : Heeds c (peek offset) :=
  heeds_bind (heeds_slot offset) fun _ => heeds_bind heeds_get fun _ => heeds_pure _

theorem heeds_setCell (cell : Nat) (v : Value) : Heeds c (setCell cell v) :=
  fun _ working => working.of_threads rfl rfl rfl rfl

theorem heeds_setGlobal (name : String) (v : Value) : Heeds c (modify (·.setGlobal name v)) :=
  fun _ working => working.of_threads rfl rfl rfl rfl

theorem heeds_jump (address : Nat) : Heeds c (jump address) :=
  heeds_modifyCurrent fun t => t.bases_modifyFrame fun _ => rfl

theorem heeds_constant (u : CodeUnit) (i : Nat) : Heeds c (constant u i) := by
  unfold constant
  split
  · exact heeds_pure _
  · exact heeds_throw _

theorem heeds_globalName (u : CodeUnit) (i : Nat) : Heeds c (globalName u i) :=
  heeds_bind (heeds_constant u i) fun v => by
    cases v with
    | string name => exact heeds_pure name
    | _ => exact heeds_bind heeds_get fun _ => heeds_throw _

theorem heeds_upvalue (closure : Closure) (i : Nat) : Heeds c (upvalue closure i) := by
  unfold upvalue
  split
  · exact heeds_pure _
  · exact heeds_throw _

theorem heeds_index (target key : Value) : Heeds c (index target key) :=
  heeds_bind heeds_get fun m => by
    cases target with
    | table id => exact heeds_ofExcept _
    | string s =>
      cases m.global "string" with
      | table id => exact heeds_ofExcept _
      | _ => exact heeds_throw _
    | _ => exact heeds_throw _

theorem heeds_writeFrom (id : Nat) (start : Float) (offset : Nat) (vs : List Value) :
    Heeds c (writeFrom id start offset vs) := by
  induction vs generalizing offset with
  | nil => exact heeds_pure ()
  | cons v vs ih => exact heeds_bind (heeds_onStore _) fun _ => ih (offset + 1)

theorem heeds_putTable : Heeds c putTable := by
  refine heeds_bind heeds_pop fun value => heeds_bind heeds_pop fun key => heeds_bind heeds_pop fun target => ?_
  split
  · split
    · exact heeds_writeFrom _ _ _ _
    · exact heeds_onStore _
  · exact heeds_throw _

theorem heeds_forM_push (vs : List Value) : Heeds c (vs.forM push) := by
  induction vs with
  | nil => exact heeds_pure ()
  | cons v vs ih => exact heeds_bind (heeds_push v) fun _ => ih

theorem heeds_popVarArgs (count : Nat) (consume : Bool) : Heeds c (popVarArgs count consume) := by
  refine heeds_bind (heeds_peek 1) fun v => heeds_bind (heeds_modifyCurrent fun _ => rfl) fun _ => ?_
  dsimp only
  split
  · exact heeds_bind (heeds_push _) fun _ => heeds_forM_push _
  · exact heeds_forM_push _

theorem heeds_forControl (offset : Nat) (message : String) : Heeds c (forControl offset message) := by
  refine heeds_bind (heeds_slot offset) fun cell => heeds_bind heeds_get fun m => ?_
  cases (m.store.cell cell).coerce? with
  | some n => exact heeds_setCell _ _
  | none => exact heeds_throw _

theorem heeds_forPrep : Heeds c forPrep := by
  refine heeds_bind (heeds_forControl _ _) fun _ => heeds_bind (heeds_forControl _ _) fun _ =>
    heeds_bind (heeds_forControl _ _) fun _ => heeds_bind (heeds_peek 1) fun v => ?_
  split
  · exact heeds_throw _
  · exact heeds_pure _

theorem heeds_closeVars (count : Nat) : Heeds c (closeVars count) := by
  refine heeds_bind heeds_get fun m => ?_
  dsimp only
  split
  · exact heeds_throw _
  · exact heeds_modifyCurrent fun _ => rfl

theorem heeds_makeClosure (u : CodeUnit) (id : Nat) : Heeds c (makeClosure u id) := by
  unfold makeClosure
  split
  · exact heeds_bind heeds_get fun _ => heeds_bind (heeds_onStore _) fun _ => heeds_push _
  · exact heeds_throw _

/-! ## Calls -/

theorem heeds_enter (closure : Closure) (args : List Value) (want n : Nat) :
    Heeds c (enter closure args want n) := by
  intro m working
  rw [enter_apply]
  split
  · exact working
  · rename_i free
    exact (working.framed free closure want n).push _

theorem heeds_callHost (id : Nat) (args : List Value) : Heeds c (callHost id args) :=
  heeds_bind heeds_get fun m => by
    cases m.hosts[id]? with
    | none => exact heeds_pure _
    | some f => exact heeds_onStore _

theorem heeds_threadArgument (function : String) (args : List Value) : Heeds c (threadArgument function args) := by
  unfold threadArgument
  split
  · exact heeds_pure _
  · exact heeds_throw _

theorem heeds_create (args : List Value) (want : Nat) : Heeds c (create args want) := by
  intro m working
  simp only [create, bind_apply, get_apply]
  split
  · rename_i id _
    cases m.store.closures[id]? with
    | none => exact working
    | some closure => exact (working.create closure).pushResults _ _
  · exact working

theorem heeds_resume (args : List Value) (want : Nat) : Heeds c (resume args want) := by
  refine heeds_bind (heeds_threadArgument _ _) fun id m working => ?_
  simp only [bind_apply, get_apply]
  split
  · exact working
  split
  · exact working
  split
  · exact working.pushResults _ _
  · rename_i dead
    have waits : (m.modifyCurrent fun t => { t with awaiting := want }).Working c := working.modifyCurrent rfl
    have alive : ∀ k ∈ id :: m.running :: m.waiting,
        ((m.modifyCurrent fun t => { t with awaiting := want }).thread k).frames ≠ [] := by
      intro k mem
      rw [Machine.modifyCurrent, Machine.frames_modifyThread rfl]
      rcases List.mem_cons.1 mem with rfl | mem
      · simpa [Thread.isDead] using dead
      · exact working.alive k mem
    have given := waits.handOver alive (args.drop 1)
    rw [Machine.deliver_control] at given
    simpa only [set_apply, final, Machine.running_deliver, Machine.waiting_deliver, Machine.running_modifyCurrent,
      Machine.waiting_modifyCurrent] using given

theorem heeds_yield (args : List Value) (want : Nat) : Heeds c (yield args want) := by
  intro m working
  simp only [yield, bind_apply, get_apply]
  cases waiting : m.waiting with
  | nil => exact working
  | cons resumer rest =>
    have waits : (m.modifyCurrent fun t => { t with awaiting := want }).Working c := working.modifyCurrent rfl
    refine waits.handOver (fun k mem => ?_) _
    rw [Machine.modifyCurrent, Machine.frames_modifyThread rfl]
    exact working.alive k (List.mem_cons_of_mem _ (waiting ▸ mem))

theorem heeds_dostring (args : List Value) (want : Nat) : Heeds c (dostring args want) := by
  unfold dostring
  split
  · exact heeds_bind (heeds_ofExcept _) fun _ => heeds_enter _ _ _ _
  · exact heeds_throw _

theorem heeds_callCoreWith {protectedCall : Exec Unit} (inner : Heeds c protectedCall) (f : CoreFunction)
    (args : List Value) (want : Nat) : Heeds c (callCoreWith protectedCall f args want) := by
  cases f with
  | pcall => exact inner
  | create => exact heeds_create args want
  | resume => exact heeds_resume args want
  | yield => exact heeds_yield args want
  | status =>
    exact heeds_bind (heeds_threadArgument _ _) fun _ => heeds_bind heeds_get fun _ => heeds_pushResults _ _
  | dostring => exact heeds_dostring args want

end Exec

theorem Machine.Working.settle {c : Config} {m : Machine} (working : m.Working c) (caller frames handlers want : Nat) :
    (Exec.final (m.settle caller frames handlers want m)).Working c := by
  have told : (if handlers < (m.thread caller).handlers.length then
      m.modifyThread caller (·.modifyHandler fun h => { h with wraps := h.wraps + 1 }) else m).Working c := by
    split
    · refine working.modifyThread ?_ fun _ => ?_
      · rw [Thread.frames_modifyHandler]
      · unfold Thread.modifyHandler
        split <;> rfl
    · exact working
  unfold Machine.settle
  generalize (if handlers < (m.thread caller).handlers.length then
      m.modifyThread caller (·.modifyHandler fun h => { h with wraps := h.wraps + 1 }) else m) = k at told ⊢
  split
  · exact told.modifyThread rfl fun _ => rfl
  split
  · refine told.modifyThread (Thread.bases_modifyFrame _ fun _ => rfl) fun none => ?_
    rw [Thread.modifyFrame, none]
  · have rest : Exec.Heeds c (do
        let results ← Exec.popSpread 1
        modify (·.modifyCurrent fun t => { t with handlers := t.handlers.drop 1 })
        Exec.pushResults want (.boolean true :: results)) :=
      Exec.heeds_bind (Exec.heeds_popSpread 1) fun _ => Exec.heeds_bind (Exec.heeds_modifyCurrent fun _ => rfl)
        fun _ => Exec.heeds_pushResults _ _
    exact rest k told

namespace Exec

variable {c : Config}

theorem heeds_guarded (want : Nat) {action : Exec Unit} (inner : Heeds c action) : Heeds c (guarded want action) :=
  heeds_bind (heeds_modifyCurrent fun _ => rfl) fun _ => heeds_bind heeds_get fun _ => heeds_bind inner fun _ _ working =>
    working.settle _ _ _ _

theorem heeds_pushFailure (want : Nat) (fault : Fault) : Heeds c (pushFailure want fault) := heeds_pushResults _ _

/-- A protected call, along the chain of protected calls that it goes through. -/
theorem heeds_pcall (args : List Value) (want : Nat) : Heeds c (pcall args want) := by
  induction args generalizing want with
  | nil => exact heeds_pushFailure _ _
  | cons callee rest ih =>
    by_cases nested : callee = .core .pcall
    · subst nested
      rw [pcall]
      exact heeds_guarded want (ih 0)
    · rw [pcall]
      case x_2 => exact nested
      refine heeds_bind heeds_get fun m => ?_
      cases m.callTarget callee rest with
      | error fault => exact heeds_pushFailure _ _
      | ok found =>
        obtain ⟨v, args⟩ := found
        cases v with
        | closure id =>
          refine heeds_bind heeds_get fun m => ?_
          cases m.store.closures[id]? with
          | none => exact heeds_pushFailure _ _
          | some closure =>
            exact heeds_bind (heeds_modifyCurrent fun _ => rfl) fun _ => heeds_enter _ _ _ _
        | host id name =>
          intro m working
          have called := heeds_callHost id args m working
          simp only [bind_apply, get_apply]
          cases done : callHost id args m with
          | ok results m' =>
            rw [done] at called
            exact called.pushResults _ _
          | error fault m' =>
            rw [done] at called
            exact called.pushResults _ _
        | core f => exact heeds_guarded want (heeds_callCoreWith (heeds_throw _) f args 0)
        | _ => exact heeds_pushFailure _ _

theorem heeds_call (callee : Value) (args : List Value) (want : Nat) : Heeds c (call callee args want) := by
  refine heeds_bind heeds_get fun m => heeds_bind (heeds_ofExcept _) fun found => ?_
  obtain ⟨v, given⟩ := found
  cases v with
  | closure id =>
    refine heeds_bind heeds_get fun m => ?_
    cases m.store.closures[id]? with
    | none => exact heeds_throw _
    | some closure => exact heeds_enter _ _ _ _
  | host id name => exact heeds_bind (heeds_callHost _ _) fun _ => heeds_pushResults _ _
  | core f => exact heeds_callCoreWith (heeds_pcall given want) f given want
  | _ => exact heeds_throw _

theorem heeds_callMetamethod (event : String) (lhs rhs : Value) (fault : Fault) :
    Heeds c (callMetamethod event lhs rhs fault) := by
  have calls (handler : Value) : Heeds c (if handler.isNil then throw fault else call handler [lhs, rhs] 1) := by
    split
    · exact heeds_throw _
    · exact heeds_call _ _ _
  refine heeds_bind heeds_get fun m => heeds_bind (heeds_ofExcept _) fun first => ?_
  dsimp only
  split
  · exact heeds_bind (heeds_ofExcept _) calls
  · exact heeds_bind (heeds_pure _) calls

/-! ## Instructions -/

theorem heeds_arithmetic (operator : Arithmetic) : Heeds c (arithmetic operator) := by
  refine heeds_bind heeds_pop fun rhs => heeds_bind heeds_pop fun lhs => ?_
  split
  · exact heeds_push _
  · exact heeds_callMetamethod _ _ _ _

theorem heeds_negate : Heeds c negate := by
  refine heeds_bind heeds_pop fun v => ?_
  split
  · exact heeds_push _
  · exact heeds_callMetamethod _ _ _ _

theorem heeds_concat : Heeds c concat := by
  refine heeds_bind heeds_pop fun rhs => heeds_bind heeds_pop fun lhs => ?_
  split
  · exact heeds_push _
  · exact heeds_callMetamethod _ _ _ _

theorem heeds_length : Heeds c length := by
  refine heeds_bind heeds_pop fun v => heeds_bind heeds_get fun m => heeds_bind (heeds_ofExcept _) fun handler => ?_
  split
  · split
    · exact heeds_push _
    · exact heeds_push _
    · exact heeds_throw _
  · exact heeds_call _ _ _

theorem heeds_judge (running frames : Nat) : Heeds c (judge running frames) := by
  intro m working
  simp only [judge, bind_apply, get_apply]
  split
  · split
    · exact working.modifyCurrent (Thread.bases_modifyFrame _ fun _ => rfl)
    · exact heeds_bind heeds_pop (fun _ => heeds_push _) m working
  · exact working

theorem heeds_compare (test : Value → Value → Option Bool) (event : String) : Heeds c (compare test event) := by
  refine heeds_bind heeds_pop fun rhs => heeds_bind heeds_pop fun lhs => ?_
  cases test lhs rhs with
  | some result => exact heeds_push _
  | none => exact heeds_bind heeds_get fun m => heeds_bind (heeds_callMetamethod _ _ _ _) fun _ => heeds_judge _ _

theorem heeds_perform (closure : Closure) (op : Opcode) (a b : Nat) : Heeds c (perform closure op a b) := by
  cases op with
  | loadK => exact heeds_bind (heeds_constant _ _) fun _ => heeds_push _
  | getStack => exact heeds_bind (heeds_peek _) fun _ => heeds_push _
  | putStack => exact heeds_bind (heeds_slot _) fun _ => heeds_bind heeds_pop fun _ => heeds_setCell _ _
  | popStack => exact heeds_modifyCurrent fun _ => rfl
  | getGlobal => exact heeds_bind (heeds_globalName _ _) fun _ => heeds_bind heeds_get fun _ => heeds_push _
  | putGlobal => exact heeds_bind (heeds_globalName _ _) fun _ => heeds_bind heeds_pop fun _ => heeds_setGlobal _ _
  | add | sub | mul | div | mod | pow => exact heeds_arithmetic _
  | neg => exact heeds_negate
  | concat => exact heeds_concat
  | len => exact heeds_length
  | eq | and | or => exact heeds_bind heeds_pop fun _ => heeds_bind heeds_pop fun _ => heeds_push _
  | not => exact heeds_bind heeds_pop fun _ => heeds_push _
  | less | lessEq => exact heeds_compare _ _
  | newTable => exact heeds_bind (heeds_onStore _) fun _ => heeds_push _
  | putTable => exact heeds_putTable
  | getTable =>
    exact heeds_bind heeds_pop fun _ => heeds_bind heeds_pop fun _ => heeds_bind (heeds_index _ _) fun _ =>
      heeds_push _
  | call => exact heeds_bind (heeds_popSpread _) fun _ => heeds_bind heeds_pop fun _ => heeds_call _ _ _
  | jmp => exact heeds_jump _
  | jmpTrue =>
    have jumps (v : Value) : Heeds c (if v.isTruthy then jump a else pure ()) := by
      split
      · exact heeds_jump a
      · exact heeds_pure ()
    rw [perform]
    by_cases peeks : b = 1
    · rw [if_pos peeks]
      exact heeds_bind (heeds_peek 1) jumps
    · rw [if_neg peeks]
      exact heeds_bind heeds_pop jumps
  | popVarArgs => exact heeds_popVarArgs _ _
  | forPrep => exact heeds_forPrep
  | closeVars => exact heeds_closeVars _
  | popClosed => exact heeds_modifyCurrent fun _ => rfl
  | closure => exact heeds_makeClosure _ _
  | getUpval => exact heeds_bind (heeds_upvalue _ _) fun _ => heeds_bind heeds_get fun _ => heeds_push _
  | putUpval => exact heeds_bind heeds_pop fun _ => heeds_bind (heeds_upvalue _ _) fun _ => heeds_setCell _ _
  | ret => exact heeds_pure ()

end Exec

/-! ## Steps -/

namespace Machine

variable {c : Config} {m m' : Machine} {f : Frame} {rest : List Frame}

theorem Within.entered {u : Unit} (within : m.Within c) (inside : m.running < m.threads.size) {closure : Closure}
    {args : List Value} {want n : Nat} (entered : Exec.enter closure args want n m = .ok u m') : m'.Within c := by
  rw [Exec.enter_apply] at entered
  split at entered
  · cases entered
  · rename_i free
    cases entered
    rw [push_eq_pushResults]
    refine (within.framed free closure want n).pushResultsOn ?_ 1 _
    show (m.modifyCurrent (Thread.framed closure want n)).current.frames ≠ []
    rw [current_modifyCurrent inside]
    exact List.cons_ne_nil _ _

namespace Working

variable (working : m.Working c)
include working

theorem leave (frames : m.current.frames = f :: rest) : (m.modifyCurrent (f.leave rest)).Within c := by
  have base := (working.threads m.running).bases f (by rw [show (m.thread m.running).frames = f :: rest from frames]; simp)
  refine working.toWithin.modifyThread ((working.threads m.running).of_bases ?_ fun _ => ?_)
  · rw [show (m.thread m.running).frames = f :: rest from frames]
    exact List.sublist_cons_self _ _
  · simp only [Frame.leave, Array.size_shrink]
    omega

/-- A return gives results to a frame or to a thread that waits. -/
theorem returnFrom (distinct : (m.running :: m.waiting).Nodup) (results : List Value) :
    (Exec.final (Exec.returnFrom results m)).Within c := by
  have inside : m.running < m.threads.size := lt_of_frames (working.alive m.running List.mem_cons_self)
  obtain ⟨f, rest, frames⟩ := List.exists_cons_of_ne_nil (working.alive m.running List.mem_cons_self)
  have left := working.leave frames
  rcases Exec.returnFrom_cases frames results with ⟨some', done⟩ | ⟨-, -, done⟩ |
    ⟨-, resumer, others, waiting, done⟩ <;> rw [done]
  · refine left.pushResultsOn ?_ _ _
    show (m.modifyCurrent (f.leave rest)).current.frames ≠ []
    rwa [current_modifyCurrent inside]
  · exact left
  · rw [waiting] at distinct
    have other : resumer ≠ m.running := (List.nodup_cons.1 distinct).1 ∘ fun same => same ▸ List.mem_cons_self
    have alive : ((m.modifyCurrent (f.leave rest)).thread resumer).frames ≠ [] := by
      rw [thread_modifyCurrent_ne other]
      exact working.alive resumer (by simp [waiting])
    have given := left.deliver alive (.boolean true :: f.pays results)
    generalize (m.modifyCurrent (f.leave rest)).deliver resumer (.boolean true :: f.pays results) = k at given
    exact ⟨given.config, given.threads⟩

end Working

/-- A step keeps all threads within the limits. -/
theorem Within.step (within : m.Within c) (alive : ∀ id ∈ m.waiting, (m.thread id).frames ≠ [])
    (distinct : (m.running :: m.waiting).Nodup) : (Exec.final (Exec.step m)).Within c := by
  cases frames : m.current.frames with
  | nil =>
    simp only [Exec.step, Exec.bind_apply, Exec.get_apply, frames]
    exact within
  | cons f rest =>
    have working : m.Working c := by
      refine ⟨within, fun id mem => ?_⟩
      rcases List.mem_cons.1 mem with rfl | mem
      · rw [show (m.thread m.running).frames = f :: rest from frames]
        exact List.cons_ne_nil _ _
      · exact alive id mem
    cases instruction : m.next? with
    | some r =>
      obtain ⟨op, a, b⟩ := r
      obtain ⟨returns, performs⟩ := step_eq frames instruction
      have advanced : m.advance.Working c := working.modifyCurrent (Thread.bases_modifyFrame _ fun _ => rfl)
      by_cases ret : op = .ret
      · have popped : (m.advance.drop a).Working c := advanced.modifyCurrent rfl
        rw [returns ret, Exec.bind_apply, Exec.popSpread_eq]
        exact popped.returnFrom distinct _
      · have performed := Exec.heeds_bind (Exec.heeds_perform f.closure op a b)
          (fun _ => Exec.heeds_pure (none : Option (List Value))) _ advanced
        rw [performs ret]
        exact performed.toWithin
    | none =>
      have advanced : (m.modifyCurrent (·.modifyFrame ({ · with ip := f.ip + 1 }))).Working c :=
        working.modifyCurrent (Thread.bases_modifyFrame _ fun _ => rfl)
      simp only [next?, frames, List.head?_cons, Option.bind_eq_bind, Option.bind_some] at instruction
      simp only [Exec.step, Exec.bind_apply, Exec.get_apply, frames, Exec.set_apply]
      cases code : f.closure.unit.code[f.ip]? with
      | none => exact advanced.toWithin
      | some ins =>
        cases opcode : ins.opcode? with
        | none =>
          simp only [opcode]
          exact advanced.toWithin
        | some op => simp [code, opcode] at instruction

/-! ## Unwinding -/

/-- A handler goes back to frames that were there. -/
theorem Within.catchWith (within : m.Within c) {handler : Handler} {outer : List Handler} {fault : Fault}
    (alive : (m.catchWith handler outer fault).current.frames ≠ []) : (m.catchWith handler outer fault).Within c := by
  unfold Machine.catchWith at alive ⊢
  have back : ((m.modifyCurrent fun t =>
      { t.restore handler with handlers := outer.drop handler.wraps, awaitingProtections := 0 }).thread
        m.running).frames ≠ [] := by
    rw [current, Machine.pushResults, frames_pushResultsOn, running_pushResultsOn] at alive
    exact alive
  have inside : m.running < m.threads.size := by simpa using lt_of_frames back
  refine Within.pushResultsOn (within.modifyThread ((within.threads m.running).of_bases ?_ fun none => ?_)) back _ _
  · exact (List.drop_sublist _ _).map Frame.base
  · rw [modifyCurrent, thread_modifyThread_self inside] at back
    exact absurd none back

theorem Within.unwindFrom (within : m.Within c) (fault : Fault) {id : Nat} {waiting : List Nat}
    (alive : ∀ m', m.unwindFrom fault id waiting = (true, m') → m'.current.frames ≠ []) :
    (m.unwindFrom fault id waiting).2.Within c := by
  have caught {m : Machine} {id : Nat} {waiting : List Nat} (within : m.Within c)
      (alive : ∀ m', m.unwindFrom fault id waiting = (true, m') → m'.current.frames ≠ []) {handler : Handler}
      {outer : List Handler} (handlers : (m.thread id).handlers = handler :: outer) :
      (m.unwindFrom fault id waiting).2.Within c := by
    have done : m.unwindFrom fault id waiting =
        (true, ({ m with running := id, waiting } : Machine).catchWith handler outer fault) := by
      unfold Machine.unwindFrom
      rw [handlers]
    have switched : ({ m with running := id, waiting } : Machine).Within c := ⟨within.config, within.threads⟩
    rw [done]
    exact switched.catchWith (alive _ done)
  have died {m : Machine} (within : m.Within c) (id : Nat) : (m.modifyThread id fun _ => {}).Within c :=
    within.modifyThread (.empty c)
  induction waiting generalizing m id with
  | nil =>
    cases handlers : (m.thread id).handlers with
    | cons handler outer => exact caught within alive handlers
    | nil =>
      unfold Machine.unwindFrom
      rw [handlers]
      exact ⟨(died within id).config, (died within id).threads⟩
  | cons resumer rest ih =>
    cases handlers : (m.thread id).handlers with
    | cons handler outer => exact caught within alive handlers
    | nil =>
      unfold Machine.unwindFrom at alive ⊢
      rw [handlers] at alive ⊢
      exact ih (died within id) alive

end Machine

/-! ## Any code -/

/-- Whatever the host or the machine does, all threads keep within the limits. -/
theorem Session.Moves.within {s s' : Session} {c : Config} (move : Moves s s')
    (same : s'.machine.config = s.machine.config) (orderly : s.Orderly) (within : s.machine.Within c) :
    s'.machine.Within c := by
  have after := move.orderly orderly
  have cleared : (s.machine.modifyThread 0 fun _ => {}).Within c := within.modifyThread (.empty c)
  have stepped (busy : s.busy = true) : (Exec.final (Exec.step s.machine)).Within c :=
    within.step (fun id mem => orderly.alive busy id (List.mem_cons_of_mem _ mem)) orderly.rooted.distinct
  cases move with
  | prepare threads running waiting => exact within.of_threads same threads
  | call idle dead entered =>
    exact cleared.entered (by simpa using orderly.rooted.running_lt) entered
  | refuse idle dead entered =>
    rw [Exec.enter_apply] at entered
    split at entered
    · cases entered
      exact cleared
    · cases entered
  | step busy step =>
    have stepped := stepped busy
    rwa [step] at stepped
  | finish busy step =>
    have stepped := stepped busy
    rwa [step] at stepped
  | @fault m m' fault caught busy step unwound =>
    have reached : m.Within c := by
      have stepped := stepped busy
      rwa [step] at stepped
    have unwinding : m.unwindFrom (m.locate fault) m.running m.waiting = (caught, m') := unwound
    have alive : ∀ k, m.unwindFrom (m.locate fault) m.running m.waiting = (true, k) → k.current.frames ≠ [] := by
      intro k done
      rw [unwinding] at done
      cases done
      exact after.alive rfl _ List.mem_cons_self
    have kept := reached.unwindFrom (m.locate fault) alive
    rwa [unwinding] at kept

/-! ## Compiled code -/

/-- The largest depth that the verifier records for an instruction of the unit. -/
def CodeUnit.deepest (u : CodeUnit) : Nat :=
  match Verifier.depths u with
  | .ok record => (record.toList.map fun d? => (d?.map (·.depth.toNat)).getD 0).foldr max 0
  | .error _ => 0

/-- The largest depth that the verifier records for an instruction of any unit that is being run. -/
def Machine.deepest (m : Machine) : Nat :=
  ((m.threads.toList.flatMap Thread.frames).map fun f => f.closure.unit.deepest).foldr max 0

open Verifier in
theorem CodeUnit.le_deepest {u : CodeUnit} {record : Record} {ip : Nat} {d : Depths}
    (recorded : depths u = .ok record) (here : record.at? ip = some d) : d.depth ≤ u.deepest := by
  have mem : d.depth.toNat ∈ record.toList.map fun d? => (d?.map (·.depth.toNat)).getD 0 :=
    List.mem_map.2 ⟨some d, Array.mem_toList_iff.2 (Array.mem_of_getElem? (Record.at?_eq_some.1 here)), rfl⟩
  have le := List.le_max_of_le mem le_rfl
  rw [deepest, recorded]
  exact Int.toNat_le.1 le

theorem Machine.le_deepest {m : Machine} {id : Nat} {f : Frame} (mem : f ∈ (m.thread id).frames) :
    f.closure.unit.deepest ≤ m.deepest := by
  have inside := lt_of_frames (List.ne_nil_of_mem mem)
  have there : m.thread id ∈ m.threads.toList := by
    simp [thread, inside]
  exact List.le_max_of_le (List.mem_map_of_mem (List.mem_flatMap.2 ⟨_, there, mem⟩)) le_rfl

/-- Above the base of a frame that rests there are no more cells than some instruction of its unit has. -/
theorem Frame.Rests.stack_le {f : Frame} {stack captures : Nat} (h : f.Rests stack captures) :
    stack ≤ f.base + f.closure.unit.deepest := by
  obtain ⟨record, captured, d, recorded, here, depth, -⟩ := h
  have le := CodeUnit.le_deepest recorded.depths here
  omega

namespace Machine

variable {m : Machine}

theorem Within.own {c : Config} (within : m.Within c) : m.Within m.config := within.config.symm ▸ within

theorem Within.host {c : Config} (within : m.Within c) (id : Nat) (args : List Value) :
    (Exec.final (Exec.callHost id args m)).Within c := by
  simp only [Exec.callHost, Exec.bind_apply, Exec.get_apply]
  cases m.hosts[id]? with
  | none => exact within
  | some f =>
    simp only [Exec.onStore_apply]
    split <;> exact within.of_threads rfl rfl

theorem within_machine (config : Config) : (Library.machine config).Within config := by
  have empty (id : Nat) : (Library.machine config).thread id = {} := by
    rw [thread, show (Library.machine config).threads = #[{}] from rfl]
    cases id <;> rfl
  refine ⟨rfl, fun id => ?_⟩
  rw [empty]
  exact .empty config

theorem Reachable.within (h : m.Reachable Doubles) : m.Within m.config := by
  induction h with
  | start config => exact within_machine config
  | register h honest ih => exact ih.of_threads rfl rfl
  | setGlobal h name v ih => exact ih.of_threads rfl rfl
  | chunk h compiled ih => exact ih.of_threads rfl rfl
  | takeOutput h ih => exact ih.of_threads rfl rfl
  | @enter m m' id closure args h idle dead found entered ih =>
    have cleared : (m.modifyThread 0 fun _ => {}).Within m.config := ih.modifyThread (.empty _)
    exact (cleared.entered (by simpa using h.in_order.sane.running_lt) entered).own
  | @host m m' id args h called ih =>
    have kept := ih.host id args
    rcases called with ⟨results, called⟩ | ⟨fault, called⟩ <;> rw [called] at kept <;> exact kept.own
  | step h free step ih =>
    have kept := ih.step h.in_order.alive h.in_order.sane.distinct
    rw [step] at kept
    exact kept.own
  | @fault m m' fault h free step ih =>
    have ordered := h.in_order
    have raised := error_ordered ordered (fun slip => free (slip.doubles ordered)) step
    have reached := ih.step ordered.alive ordered.sane.distinct
    rw [step] at reached
    exact (reached.unwindFrom (m'.locate fault) fun k caught => unwindFrom_alive _ raised caught).own

/-- The cells that compiled code keeps above the base of a frame are counted when it is verified, so a stack
exceeds the limit by no more than that. -/
theorem Reachable.stack_le (h : m.Reachable Doubles) (id : Nat) :
    (m.thread id).stack.size ≤ m.config.maxStack - 1 + m.deepest := by
  have ordered := h.in_order
  have within := h.within.threads id
  cases frames : (m.thread id).frames with
  | nil => exact (within.ended frames).trans (Nat.le_add_right _ _)
  | cons f rest =>
    have mem : f ∈ (m.thread id).frames := by simp [frames]
    have base := within.bases f mem
    have deep := le_deepest mem
    have inside := lt_of_frames (List.ne_nil_of_mem mem)
    have own : (m.thread id).stack.size ≤ f.base + f.closure.unit.deepest := by
      by_cases itself : id = m.running
      · subst itself
        have active := ordered.current.2
        rw [show m.current.frames = f :: rest from frames] at active
        exact active.rests.stack_le
      · have blocked := ordered.others id inside itself
        rw [Thread.Blocked, frames] at blocked
        exact (Nat.le_add_right _ _).trans blocked.receive.rests.stack_le
    omega

/-- A host call that the limits refuse leaves the machine as a step would, on which nothing runs. -/
theorem Reachable.refused {m' : Machine} (h : m.Reachable Doubles) (idle : m.waiting = [])
    (dead : (m.thread 0).frames = []) {closure : Closure} {args : List Value} {fault : Fault}
    (entered : Exec.enter closure args 0 0 (m.modifyThread 0 fun _ => {}) = .error fault m') :
    m'.Reachable Doubles := by
  have ordered := h.in_order
  have program : m.running = 0 := by simpa [idle] using ordered.sane.bottom
  have frames : m.current.frames = [] := by rwa [current, program]
  have handlers : (m.thread 0).handlers = [] := by
    have active := ordered.current.2
    rwa [frames, current, program] at active
  have free : ¬m.Doubles := by
    rintro ⟨callee, args, want, rest, asked, -⟩
    simp [nextCall?, next?, frames] at asked
  obtain ⟨fault', failed⟩ : ∃ fault', Exec.step m = .error fault' m := by
    simp only [Exec.step, Exec.bind_apply, Exec.get_apply, frames]
    exact ⟨_, rfl⟩
  have ended : (m.unwind (m.locate fault')).2 = m.modifyThread 0 fun _ => {} := by
    simp only [unwind, idle, program]
    unfold unwindFrom
    rw [handlers]
    show ({ m.modifyThread 0 fun _ => {} with running := 0, waiting := [] } : Machine) = _
    rw [← program, ← idle]
    rfl
  rw [Exec.enter_apply] at entered
  split at entered
  · cases entered
    rw [← ended]
    exact h.fault free failed
  · cases entered

end Machine

/-- What the host or the machine does next; the limits are set once and for all when the machine is made. -/
def Session.Proceeds (s s' : Session) : Prop := Moves s s' ∧ s'.machine.config = s.machine.config

theorem Session.within {config : Config} {s : Session} (run : Relation.ReflTransGen Proceeds (start config) s) :
    s.Orderly ∧ s.machine.Within config := by
  induction run with
  | refl => exact ⟨start_orderly config, Machine.within_machine config⟩
  | tail run next ih => exact ⟨next.1.orderly ih.1, next.1.within next.2 ih.1 ih.2⟩

namespace Machine

/-- A chunk is called on a machine on which nothing has run yet. -/
theorem Fresh.proceeds {m : Machine} (fresh : m.Fresh) (reach : m.Reachable Doubles) {text label : String}
    {u : CodeUnit} (compiled : Compiler.compileSource text label = .ok u) (asked : Nat → Option (Nat × Nat)) :
    ∃ m' : Machine, Relation.ReflTransGen Session.Proceeds ⟨m, false, asked⟩ ⟨m', true, asked⟩ ∧
      m'.Reachable Doubles ∧ m'.threads = #[.ofChunk u] := by
  obtain ⟨m', entered, -, -, threads, -, -, -, config⟩ := fresh.enters u []
  have dead : (m.thread 0).frames = [] := by simp [thread, fresh.threads]
  have found : (m.store.newClosure ⟨u, #[]⟩).2.closures[m.store.closures.size]? = some ⟨u, #[]⟩ := by
    simp [Store.newClosure]
  have given : Session.Proceeds ⟨m, false, asked⟩
      ⟨{ m with store := (m.store.newClosure ⟨u, #[]⟩).2 }, false, asked⟩ := ⟨.prepare rfl rfl rfl, rfl⟩
  have called : Session.Proceeds ⟨{ m with store := (m.store.newClosure ⟨u, #[]⟩).2 }, false, asked⟩
      ⟨m', true, asked⟩ := ⟨.call fresh.waiting dead entered, config⟩
  exact ⟨m', (Relation.ReflTransGen.single given).tail called,
    (reach.chunk compiled).enter fresh.waiting dead found entered, threads⟩

/-- The limits bound every thread. Whatever the code and whatever the host does, no thread has more frames than
the limit on calls, and all frames have their bases below the limit on cells. In runs of compiled code in which
the protected call is never applied to itself, the cells of a thread exceed the latter by no more than the
largest depth that is recorded for an instruction of the units that run. A closure that the limits refuse is
refused before anything has changed. -/
theorem limits_bound :
    (∀ config s, Relation.ReflTransGen Session.Proceeds (Session.start config) s → ∀ id,
      (s.machine.thread id).frames.length ≤ config.maxCallDepth ∧
        ∀ f ∈ (s.machine.thread id).frames, f.base < config.maxStack) ∧
    (∀ m : Machine, m.Reachable Doubles → ∀ id,
      (m.thread id).stack.size ≤ m.config.maxStack - 1 + m.deepest) ∧
    ∀ (m : Machine) (closure : Closure) (args : List Value) (want n : Nat),
      (m.AtLimit ∧ Exec.enter closure args want n m = .error .stackOverflow m) ∨
        (¬m.AtLimit ∧ ∃ m', Exec.enter closure args want n m = .ok () m') := by
  refine ⟨fun config s run id => ?_, fun m reach id => reach.stack_le id, fun m closure args want n => ?_⟩
  · have within := (Session.within run).2.threads id
    exact ⟨within.depth, within.bases⟩
  · rw [Exec.enter_apply]
    by_cases limit : m.AtLimit
    · exact .inl ⟨limit, if_pos limit⟩
    · exact .inr ⟨limit, _, if_neg limit⟩

/-- A chunk has been called: its frame and its one cell are within the limits. A machine that has room for no
frame refuses it. -/
theorem limits_bound_chunk : ∃ (u : CodeUnit) (s : Session) (full : Machine),
    Relation.ReflTransGen Session.Proceeds (Session.start {}) s ∧ s.machine.Reachable Doubles ∧
    s.machine.threads = #[.ofChunk u] ∧ full.AtLimit ∧
    ((s.machine.thread 0).frames.length ≤ ({} : Config).maxCallDepth ∧
      ∀ f ∈ (s.machine.thread 0).frames, f.base < ({} : Config).maxStack) ∧
    (s.machine.thread 0).stack.size ≤ s.machine.config.maxStack - 1 + s.machine.deepest ∧
    Exec.enter ⟨u, #[]⟩ [] 0 0 full = .error .stackOverflow full := by
  obtain ⟨u, compiled, -⟩ : ∃ u, Compiler.compileSource "return ..." "test" = .ok u ∧ u.code.size = 3 :=
    Compiler.compileSource_of_any (by decide +kernel)
  obtain ⟨m, run, reach, threads⟩ := (Fresh.machine (by decide)).proceeds (Reachable.start {}) compiled
    fun _ => none
  have limit : (Library.machine { maxCallDepth := 0 }).AtLimit := Or.inl (Nat.zero_le _)
  obtain ⟨bounded, sizes, entries⟩ := limits_bound
  refine ⟨u, _, Library.machine { maxCallDepth := 0 }, run, reach, threads, limit, bounded _ _ run 0,
    sizes m reach 0, ?_⟩
  rcases entries (Library.machine { maxCallDepth := 0 }) ⟨u, #[]⟩ [] 0 0 with ⟨-, refused⟩ | ⟨free, -⟩
  · exact refused
  · exact absurd limit free

end Machine

end ScriptEngine
