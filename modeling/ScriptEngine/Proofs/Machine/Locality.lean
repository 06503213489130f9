import ScriptEngine.Proofs.Machine.Request

/-!
# What stays within a thread

Most of what a thread does concerns no other thread. From `m` to `m'` a machine has stayed `Apart` from
its other threads if only the running one has changed, and in no way that a thread could not change
while it runs (`Thread.Proceeds`). Instructions that call nothing keep apart (`perform_stays`), and so
does every call but those that hand control to another thread (`call_conducts`). All of this holds of
any program, compiled or not, and of any functions of the host.
-/

set_option linter.dupNamespace false

namespace ScriptEngine

/-- Handlers were made with frames to go back to, and nobody but the thread's own start waits for its
outermost frame. -/
structure Thread.Grounded (t : Thread) : Prop where
  noted : ∀ h ∈ t.handlers, 0 < h.frames
  plain : ∀ f, t.frames.getLast? = some f → f.protections = 0 ∧ f.isCondition = false

/-- What becomes of a thread as long as it runs. -/
structure Thread.Proceeds (t t' : Thread) : Prop where
  awaiting : t'.awaiting = t.awaiting
  protections : t'.awaitingProtections = t.awaitingProtections
  alive : t.frames ≠ [] → t'.frames ≠ []
  grounded : t.frames ≠ [] → t.Grounded → t'.Grounded

namespace Thread

variable {t t' t'' : Thread}

theorem Proceeds.refl (t : Thread) : t.Proceeds t := ⟨rfl, rfl, id, fun _ => id⟩

theorem Proceeds.trans (first : t.Proceeds t') (second : t'.Proceeds t'') : t.Proceeds t'' :=
  ⟨second.awaiting.trans first.awaiting, second.protections.trans first.protections,
    fun alive => second.alive (first.alive alive),
    fun alive grounded => second.grounded (first.alive alive) (first.grounded alive grounded)⟩

/-- Stack and closure list do not matter, and neither does the address of the innermost frame. -/
theorem Proceeds.of_frames (awaiting : t'.awaiting = t.awaiting)
    (protections : t'.awaitingProtections = t.awaitingProtections) (frames : t'.frames = t.frames)
    (handlers : t'.handlers = t.handlers) : t.Proceeds t' where
  awaiting := awaiting
  protections := protections
  alive alive := by rwa [frames]
  grounded _ grounded := ⟨by rw [handlers]; exact grounded.noted, by rw [frames]; exact grounded.plain⟩

theorem Proceeds.withCells (t : Thread) (start count : Nat) : t.Proceeds (t.withCells start count) :=
  .of_frames rfl rfl rfl rfl

/-- The outermost frame is the innermost one or not changed with it. -/
theorem getLast?_modifyFrame {f : Frame → Frame} {g : Frame}
    (last : (t.modifyFrame f).frames.getLast? = some g) :
    t.frames.getLast? = some g ∨ ∃ h, t.frames = [h] ∧ g = f h := by
  unfold modifyFrame at last
  cases frames : t.frames with
  | nil => simp [frames] at last
  | cons h rest =>
    simp only [frames] at last
    cases rest with
    | nil =>
      cases last
      exact Or.inr ⟨h, rfl, rfl⟩
    | cons h' rest => exact Or.inl (by simpa using last)

theorem modifyFrame_frames_ne_nil {f : Frame → Frame} (alive : t.frames ≠ []) :
    (t.modifyFrame f).frames ≠ [] := by
  unfold modifyFrame
  cases frames : t.frames with
  | nil => exact absurd frames alive
  | cons h rest => simp

theorem modifyFrame_fields (t : Thread) (f : Frame → Frame) :
    (t.modifyFrame f).awaiting = t.awaiting ∧
      (t.modifyFrame f).awaitingProtections = t.awaitingProtections ∧
      (t.modifyFrame f).handlers = t.handlers := by
  unfold modifyFrame
  split <;> exact ⟨rfl, rfl, rfl⟩

/-- The innermost frame may change if nobody waits for it then who did not before, or if it is not the
outermost one. -/
theorem Proceeds.modifyFrame {f : Frame → Frame} (right : 1 < t.frames.length ∨
    ∀ g : Frame, (f g).protections = g.protections ∧ (f g).isCondition = g.isCondition) :
    t.Proceeds (t.modifyFrame f) := by
  obtain ⟨awaiting, protections, handlers⟩ := t.modifyFrame_fields f
  refine ⟨awaiting, protections, modifyFrame_frames_ne_nil, fun alive grounded => ⟨?_, fun g last => ?_⟩⟩
  · rw [handlers]
    exact grounded.noted
  · rcases getLast?_modifyFrame last with last | ⟨h, frames, rfl⟩
    · exact grounded.plain g last
    · have plain := grounded.plain h (by rw [frames]; rfl)
      rcases right with several | same
      · simp [frames] at several
      · rw [(same h).1, (same h).2]
        exact plain

theorem Proceeds.pushHandler (t : Thread) (want : Nat) : t.Proceeds (t.pushHandler want) where
  awaiting := rfl
  protections := rfl
  alive := id
  grounded alive grounded := by
    refine ⟨fun h mem => ?_, grounded.plain⟩
    rcases List.mem_cons.1 mem with rfl | mem
    · exact List.length_pos_iff.2 alive
    · exact grounded.noted h mem

theorem Proceeds.dropHandlers (t : Thread) (n : Nat) :
    t.Proceeds { t with handlers := t.handlers.drop n } :=
  ⟨rfl, rfl, id, fun _ grounded =>
    ⟨fun h mem => grounded.noted h (List.mem_of_mem_drop mem), grounded.plain⟩⟩

theorem Proceeds.wrapHandler (t : Thread) :
    t.Proceeds (t.modifyHandler fun h => { h with wraps := h.wraps + 1 }) := by
  unfold Thread.modifyHandler
  cases handlers : t.handlers with
  | nil => exact .refl t
  | cons h outer =>
    refine ⟨rfl, rfl, id, fun _ grounded => ⟨fun g mem => ?_, grounded.plain⟩⟩
    rcases List.mem_cons.1 mem with rfl | mem
    · exact grounded.noted h (by rw [handlers]; exact List.mem_cons_self)
    · exact grounded.noted g (by rw [handlers]; exact List.mem_cons_of_mem _ mem)

/-- A frame on top of others. -/
theorem Proceeds.enter (t : Thread) (g : Frame) (captures : Array Nat) :
    t.Proceeds { t with captures, frames := g :: t.frames } where
  awaiting := rfl
  protections := rfl
  alive _ := by simp
  grounded alive grounded := by
    refine ⟨grounded.noted, fun f last => grounded.plain f ?_⟩
    cases frames : t.frames with
    | nil => exact absurd frames alive
    | cons h rest => simpa [frames] using last

end Thread

namespace Machine

/-- From `m` to `m'` only the running thread, globals, hosts and store have changed, and threads may
have been made. -/
structure Apart (m m' : Machine) : Prop where
  running : m'.running = m.running
  waiting : m'.waiting = m.waiting
  size : m.threads.size ≤ m'.threads.size
  others : ∀ id, id < m.threads.size → id ≠ m.running → m'.thread id = m.thread id
  made : ∀ id, m.threads.size ≤ id → id < m'.threads.size → ∃ c, m'.thread id = .ofClosure c
  current : m.current.Proceeds m'.current

/-- The result keeps apart, whether it is a fault or not. -/
def Stays {α : Type} (m : Machine) : EStateM.Result Fault Machine α → Prop
  | .ok _ m' => m.Apart m'
  | .error _ m' => m.Apart m'

namespace Apart

variable {m m' m'' : Machine}

theorem of_threads (threads : m'.threads = m.threads) (running : m'.running = m.running)
    (waiting : m'.waiting = m.waiting) : m.Apart m' where
  running := running
  waiting := waiting
  size := by rw [threads]
  others id _ _ := by rw [thread, thread, threads]
  made id low high := by
    rw [threads] at high
    omega
  current := by
    rw [Machine.current, Machine.current, thread, thread, threads, running]
    exact .refl _

theorem refl (m : Machine) : m.Apart m := of_threads rfl rfl rfl

theorem trans (inside : m.running < m.threads.size) (first : m.Apart m') (second : m'.Apart m'') :
    m.Apart m'' where
  running := second.running.trans first.running
  waiting := second.waiting.trans first.waiting
  size := Nat.le_trans first.size second.size
  others id inside other := by
    rw [second.others id (Nat.lt_of_lt_of_le inside first.size) (by rw [first.running]; exact other)]
    exact first.others id inside other
  made id low high := by
    by_cases early : id < m'.threads.size
    · have other : id ≠ m'.running := by
        rw [first.running]
        omega
      rw [second.others id early other]
      exact first.made id low early
    · exact second.made id (by omega) high
  current := first.current.trans second.current

theorem inside (apart : m.Apart m') (inside : m.running < m.threads.size) :
    m'.running < m'.threads.size := by
  rw [apart.running]
  exact Nat.lt_of_lt_of_le inside apart.size

theorem modifyCurrent (inside : m.running < m.threads.size) {f : Thread → Thread}
    (proceeds : m.current.Proceeds (f m.current)) : m.Apart (m.modifyCurrent f) where
  running := rfl
  waiting := rfl
  size := by simp
  others id _ other := thread_modifyCurrent_ne other
  made id low high := by
    simp only [size_modifyCurrent] at high
    omega
  current := by
    rw [current_modifyCurrent inside]
    exact proceeds

theorem pushResults (inside : m.running < m.threads.size) (want : Nat) (vs : List Value) :
    m.Apart (m.pushResults want vs) where
  running := by simp [Machine.pushResults]
  waiting := by simp [Machine.pushResults]
  size := by simp [Machine.pushResults]
  others id _ other := thread_pushResultsOn_ne other
  made id low high := by
    simp only [Machine.pushResults, size_pushResultsOn] at high
    omega
  current := by
    rw [current_pushResults inside]
    exact .withCells _ _ _

theorem push (inside : m.running < m.threads.size) (v : Value) : m.Apart (m.push v) :=
  pushResults inside 1 [v]

theorem drop (inside : m.running < m.threads.size) (n : Nat) : m.Apart (m.drop n) :=
  modifyCurrent inside (.of_frames rfl rfl rfl rfl)

/-- A new coroutine. -/
theorem create (inside : m.running < m.threads.size) (c : Closure) :
    m.Apart { m with threads := m.threads.push (.ofClosure c) } := by
  have old (id : Nat) (low : id < m.threads.size) :
      ({ m with threads := m.threads.push (.ofClosure c) } : Machine).thread id = m.thread id := by
    simp only [thread]
    rw [Array.getElem?_push_lt low, Array.getElem?_eq_getElem low]
  refine ⟨rfl, rfl, by simp, fun id low _ => old id low, fun id low high => ⟨c, ?_⟩, ?_⟩
  · simp only [Array.size_push] at high
    have last : id = m.threads.size := by omega
    simp [thread, last]
  · rw [Machine.current, Machine.current, old _ inside]
    exact .refl _

end Apart

theorem Rooted.apart {m m' : Machine} (h : m.Rooted) (apart : m.Apart m') : m'.Rooted where
  bound := by
    rw [apart.running, apart.waiting]
    exact fun id mem => Nat.lt_of_lt_of_le (h.bound id mem) apart.size
  distinct := by rw [apart.running, apart.waiting]; exact h.distinct
  bottom := by rw [apart.running, apart.waiting]; exact h.bottom

theorem Apart.stays {α : Type} {m m' : Machine} (first : m.Apart m')
    (inside : m.running < m.threads.size) {r : EStateM.Result Fault Machine α} (second : m'.Stays r) :
    m.Stays r := by
  cases r with
  | ok a m'' => exact first.trans inside second
  | error fault m'' => exact first.trans inside second

/-- One thing after another. -/
theorem Stays.bind {α β : Type} {m k : Machine} (inside : m.running < m.threads.size) {x : Exec α}
    {f : α → Exec β} (first : m.Stays (x k))
    (second : ∀ a m', m.Apart m' → m'.running < m'.threads.size → m'.Stays (f a m')) :
    m.Stays ((x >>= f) k) := by
  rw [Exec.bind_apply]
  cases done : x k with
  | error fault m' =>
    rw [done] at first
    exact first
  | ok a m' =>
    rw [done] at first
    exact Apart.stays first inside (second a m' first (first.inside inside))

end Machine

/-! ## Actions of the running thread -/

namespace Exec

open Machine (Apart Stays)

variable {α β : Type}

/-- Wherever it is done, the action keeps apart from the other threads. -/
def Local (x : Exec α) : Prop := ∀ m : Machine, m.running < m.threads.size → m.Stays (x m)

theorem local_pure (a : α) : Local (pure a : Exec α) := fun m _ => Apart.refl m

theorem local_throw (fault : Fault) : Local (throw fault : Exec α) := fun m _ => Apart.refl m

theorem local_get : Local (get : Exec Machine) := fun m _ => Apart.refl m

theorem local_ofExcept (e : Except Fault α) : Local (ofExcept e) := fun m _ => by
  cases e <;> exact Apart.refl m

theorem local_bind {x : Exec α} {f : α → Exec β} (first : Local x) (second : ∀ a, Local (f a)) :
    Local (x >>= f) := fun m inside =>
  Stays.bind inside (first m inside) fun a m' _ inside' => second a m' inside'

theorem local_modifyCurrent {f : Thread → Thread} (proceeds : ∀ t : Thread, t.Proceeds (f t)) :
    Local (modify (·.modifyCurrent f)) := fun _ inside => Apart.modifyCurrent inside (proceeds _)

theorem local_pop : Local pop := fun m inside => by
  rw [pop_apply]
  exact Apart.drop inside 1

theorem local_popSpread (n : Nat) : Local (popSpread n) := fun m inside => by
  rw [popSpread_eq]
  exact Apart.drop inside n

theorem local_push (v : Value) : Local (push v) := fun _ inside => Apart.push inside v

theorem local_pushResults (want : Nat) (vs : List Value) : Local (pushResults want vs) :=
  fun _ inside => Apart.pushResults inside want vs

theorem local_onStore (action : HostAction α) : Local (onStore action) := fun m _ => by
  rw [onStore_apply]
  cases (action.run.run m.store).1 <;> split <;> exact Apart.of_threads rfl rfl rfl

theorem local_slot (offset : Nat) : Local (slot offset) :=
  local_bind local_get fun m => by
    cases m.current.cell? offset with
    | some cell => exact local_pure cell
    | none => exact local_throw _

theorem local_peek (offset : Nat) : Local (peek offset) :=
  local_bind (local_slot offset) fun _ => local_bind local_get fun _ => local_pure _

theorem local_setCell (cell : Nat) (v : Value) : Local (setCell cell v) :=
  fun _ _ => Apart.of_threads rfl rfl rfl

theorem local_setGlobal (name : String) (v : Value) : Local (modify (·.setGlobal name v)) :=
  fun _ _ => Apart.of_threads rfl rfl rfl

theorem local_jump (address : Nat) : Local (jump address) :=
  local_modifyCurrent fun _ => .modifyFrame (Or.inr fun _ => ⟨rfl, rfl⟩)

theorem local_constant (u : CodeUnit) (i : Nat) : Local (constant u i) := by
  unfold constant
  split
  · exact local_pure _
  · exact local_throw _

theorem local_globalName (u : CodeUnit) (i : Nat) : Local (globalName u i) :=
  local_bind (local_constant u i) fun v => by
    cases v with
    | string name => exact local_pure name
    | _ => exact local_bind local_get fun _ => local_throw _

theorem local_upvalue (c : Closure) (i : Nat) : Local (upvalue c i) := by
  unfold upvalue
  split
  · exact local_pure _
  · exact local_throw _

theorem local_index (target key : Value) : Local (index target key) :=
  local_bind local_get fun m => by
    cases target with
    | table id => exact local_ofExcept _
    | string s =>
      cases m.global "string" with
      | table id => exact local_ofExcept _
      | _ => exact local_throw _
    | _ => exact local_throw _

theorem local_writeFrom (id : Nat) (start : Float) (offset : Nat) (vs : List Value) :
    Local (writeFrom id start offset vs) := by
  induction vs generalizing offset with
  | nil => exact local_pure ()
  | cons v vs ih => exact local_bind (local_onStore _) fun _ => ih (offset + 1)

theorem local_putTable : Local putTable := by
  refine local_bind local_pop fun value => local_bind local_pop fun key =>
    local_bind local_pop fun target => ?_
  split
  · split
    · exact local_writeFrom _ _ _ _
    · exact local_onStore _
  · exact local_throw _

theorem local_forM_push (vs : List Value) : Local (vs.forM push) := by
  induction vs with
  | nil => exact local_pure ()
  | cons v vs ih => exact local_bind (local_push v) fun _ => ih

theorem local_popVarArgs (count : Nat) (consume : Bool) : Local (popVarArgs count consume) := by
  refine local_bind (local_peek 1) fun v => local_bind
    (local_modifyCurrent fun _ => .of_frames rfl rfl rfl rfl) fun _ => ?_
  dsimp only
  split
  · exact local_bind (local_push _) fun _ => local_forM_push _
  · exact local_forM_push _

theorem local_forControl (offset : Nat) (message : String) : Local (forControl offset message) := by
  refine local_bind (local_slot offset) fun cell => local_bind local_get fun m => ?_
  cases (m.store.cell cell).coerce? with
  | some n => exact local_setCell _ _
  | none => exact local_throw _

theorem local_forPrep : Local forPrep := by
  refine local_bind (local_forControl _ _) fun _ => local_bind (local_forControl _ _) fun _ =>
    local_bind (local_forControl _ _) fun _ => local_bind (local_peek 1) fun v => ?_
  split
  · exact local_throw _
  · exact local_pure _

theorem local_closeVars (count : Nat) : Local (closeVars count) := by
  refine local_bind local_get fun m => ?_
  dsimp only
  split
  · exact local_throw _
  · exact local_modifyCurrent fun _ => .of_frames rfl rfl rfl rfl

theorem local_makeClosure (u : CodeUnit) (id : Nat) : Local (makeClosure u id) := by
  unfold makeClosure
  split
  · exact local_bind local_get fun _ => local_bind (local_onStore _) fun _ => local_push _
  · exact local_throw _

/-! ## Instructions that call nothing -/

/-- An operator that no handler decides. -/
theorem callMetamethod_stays {m : Machine} {event : String} {lhs rhs : Value} (n : Nat)
    (inside : m.running < m.threads.size) (none' : m.handler? event lhs rhs = none) (fault : Fault) :
    m.Stays (callMetamethod event lhs rhs fault (m.drop n)) := by
  rcases Poised.callMetamethod_cases event lhs rhs fault (m.drop n) with
    ⟨fault', failed, -⟩ | ⟨v, found, -⟩
  · rw [failed]
    exact Apart.drop inside n
  · cases none'.symm.trans found

/-- The operands are gone and a result is there. -/
theorem drop_push_stays {m : Machine} (inside : m.running < m.threads.size) (n : Nat) (v : Value) :
    m.Apart ((m.drop n).push v) :=
  (Apart.drop inside n).trans inside (.push ((Apart.drop inside n).inside inside) v)

theorem arithmetic_stays {m : Machine} {operator : Arithmetic} (inside : m.running < m.threads.size)
    (quiet : (if (m.top 2).number?.isSome ∧ (m.top 1).number?.isSome then none
      else (m.handler? operator.event (m.top 2) (m.top 1)).map (·, [m.top 2, m.top 1], 1)) = none) :
    m.Stays (arithmetic operator m) := by
  rw [arithmetic_apply inside]
  split
  · exact drop_push_stays inside 2 _
  · rename_i others
    refine callMetamethod_stays 2 inside ?_ _
    split at quiet
    · rename_i both
      obtain ⟨x, lhs⟩ := Option.isSome_iff_exists.1 both.1
      obtain ⟨y, rhs⟩ := Option.isSome_iff_exists.1 both.2
      exact absurd rhs (others x y lhs)
    · simpa using quiet

theorem compare_stays {m : Machine} {test : Value → Value → Option Bool} {event : String}
    (inside : m.running < m.threads.size)
    (quiet : (if (test (m.top 2) (m.top 1)).isSome then none
      else (m.handler? event (m.top 2) (m.top 1)).map (·, [m.top 2, m.top 1], 1)) = none) :
    m.Stays (Exec.compare test event m) := by
  rw [Exec.compare, pop_pop inside]
  cases decided : test (m.top 2) (m.top 1) with
  | some result => exact drop_push_stays inside 2 _
  | none =>
    simp only [decided, Option.isSome_none, Bool.false_eq_true, if_false, Option.map_eq_none_iff] at quiet
    simp only [bind_apply, get_apply]
    rcases Poised.callMetamethod_cases event (m.top 2) (m.top 1)
      (.compare (m.top 2).typeName (m.top 1).typeName) (m.drop 2) with
      ⟨fault', done, -⟩ | ⟨v, found, -⟩
    · rw [done]
      exact Apart.drop inside 2
    · cases quiet.symm.trans found

theorem length_stays {m : Machine} (inside : m.running < m.threads.size)
    (quiet : m.handler? "__len" (m.top 1) (m.top 1) = none) : m.Stays (length m) := by
  rw [length_apply]
  simp only [Machine.handler?] at quiet
  cases looked : m.metamethod (m.top 1) "__len" with
  | error fault => exact Apart.drop inside 1
  | ok handler =>
    simp only [looked] at quiet
    by_cases missing : handler.isNil = true
    · simp only [if_pos missing]
      cases measure? m (m.top 1) with
      | some n => exact drop_push_stays inside 1 _
      | none => exact Apart.drop inside 1
    · simp [missing] at quiet

/-- An instruction that asks for no call keeps apart. -/
theorem perform_stays {m : Machine} {op : Opcode} {a b : Nat} (inside : m.running < m.threads.size)
    (quiet : m.request? op a b = none) (c : Closure) : m.Stays (perform c op a b m) := by
  cases op with
  | loadK => exact local_bind (local_constant _ _) (fun _ => local_push _) m inside
  | getStack => exact local_bind (local_peek _) (fun _ => local_push _) m inside
  | putStack =>
    exact local_bind (local_slot _) (fun _ => local_bind local_pop fun _ => local_setCell _ _) m inside
  | popStack =>
    rw [perform, modify_apply]
    exact Apart.modifyCurrent inside (.of_frames rfl rfl rfl rfl)
  | getGlobal =>
    exact local_bind (local_globalName _ _) (fun _ => local_bind local_get fun _ => local_push _) m inside
  | putGlobal =>
    exact local_bind (local_globalName _ _) (fun _ => local_bind local_pop fun _ => local_setGlobal _ _)
      m inside
  | add | sub | mul | div | mod | pow => exact arithmetic_stays inside quiet
  | neg =>
    rw [perform, negate_apply]
    cases number : (m.top 1).number? with
    | some n => exact drop_push_stays inside 1 _
    | none => exact callMetamethod_stays 1 inside (by simpa [Machine.request?, number] using quiet) _
  | concat =>
    rw [perform, concat_apply inside]
    cases text : (m.top 2).concat? (m.top 1) with
    | some s => exact drop_push_stays inside 2 _
    | none => exact callMetamethod_stays 2 inside (by simpa [Machine.request?, text] using quiet) _
  | len => exact length_stays inside (by simpa [Machine.request?] using quiet)
  | eq | and | or =>
    exact local_bind local_pop (fun _ => local_bind local_pop fun _ => local_push _) m inside
  | not => exact local_bind local_pop (fun _ => local_push _) m inside
  | less | lessEq => exact compare_stays inside quiet
  | newTable => exact local_bind (local_onStore _) (fun _ => local_push _) m inside
  | putTable => exact local_putTable m inside
  | getTable =>
    exact local_bind local_pop (fun _ => local_bind local_pop fun _ => local_bind (local_index _ _)
      fun _ => local_push _) m inside
  | call => cases quiet
  | jmp => exact local_jump _ m inside
  | jmpTrue =>
    have rest (v : Value) : Local (if v.isTruthy then jump a else pure ()) := by
      split
      · exact local_jump a
      · exact local_pure ()
    rw [perform]
    by_cases peeks : b = 1
    · rw [if_pos peeks]
      exact local_bind (local_peek 1) rest m inside
    · rw [if_neg peeks]
      exact local_bind local_pop rest m inside
  | popVarArgs => exact local_popVarArgs _ _ m inside
  | forPrep => exact local_forPrep m inside
  | closeVars => exact local_closeVars _ m inside
  | popClosed =>
    rw [perform, modify_apply]
    exact Apart.modifyCurrent inside (.of_frames rfl rfl rfl rfl)
  | closure => exact local_makeClosure _ _ m inside
  | getUpval =>
    exact local_bind (local_upvalue _ _) (fun _ => local_bind local_get fun _ => local_push _) m inside
  | putUpval =>
    exact local_bind local_pop (fun _ => local_bind (local_upvalue _ _) fun _ => local_setCell _ _) m inside
  | ret => exact local_pure () m inside

end Exec

/-! ## Calls -/

namespace Machine

variable {m m' : Machine} {want n : Nat}

/-- To whom a function hands control, with those that wait then and the values: a resume to a coroutine
that is suspended, a yield to the thread that resumed the running one. -/
def handover? (m : Machine) : Except Fault (Value × List Value) → Option (Nat × List Nat × List Value)
  | .ok (.core .resume, .thread id :: vs) =>
    if id ∈ m.running :: m.waiting ∨ m.threads.size ≤ id ∨ (m.thread id).isDead then none
    else some (id, m.running :: m.waiting, vs)
  | .ok (.core .yield, vs) =>
    match m.waiting with
    | [] => none
    | resumer :: rest => some (resumer, rest, .boolean true :: vs)
  | _ => none

/-- Which thread gets control does not depend on what the running one is like. -/
theorem handover?_modifyCurrent (m : Machine) (f : Thread → Thread)
    (found : Except Fault (Value × List Value)) :
    (m.modifyCurrent f).handover? found = m.handover? found := by
  unfold handover?
  split
  · rename_i id vs
    simp only [running_modifyCurrent, waiting_modifyCurrent, size_modifyCurrent]
    by_cases itself : id = m.running
    · simp [itself]
    · rw [thread_modifyCurrent_ne itself]
  · rfl
  · rfl

/-- The number of protected calls that a protected call goes through, itself included. -/
def protectedLayers : List Value → Nat
  | .core .pcall :: args => protectedLayers args + 1
  | _ => 1

/-- The number of protected calls around the function that a call comes to. -/
def layers (m : Machine) (callee : Value) (args : List Value) : Nat :=
  match m.callTarget callee args with
  | .ok (.core .pcall, given) => protectedLayers given
  | _ => 0

/-- A call either keeps apart or hands control over, as it is to be. -/
inductive Conducts (m : Machine) (want n : Nat) :
    Option (Nat × List Nat × List Value) → EStateM.Result Fault Machine Unit → Prop where
  | stays {r : EStateM.Result Fault Machine Unit} (h : m.Stays r) : Conducts m want n none r
  | hands {m' : Machine} {id : Nat} {rest : List Nat} {vs : List Value}
      (switched : m.Switched m' want n id vs) (waiting : m'.waiting = rest) :
      Conducts m want n (some (id, rest, vs)) (.ok () m')

/-- A protected call whose callee has kept apart is settled by the running thread. -/
theorem settle_stays (inside : m.running < m.threads.size) {frames : Nat} (some' : 0 < frames)
    (handlers want : Nat) : m.Stays (m.settle m.running frames handlers want m) := by
  -- the first thing changes the innermost handler at most
  have wrapped : ∃ m' : Machine, m.Apart m' ∧ m.settle m.running frames handlers want m =
      (do
        if frames < (m'.thread m.running).frames.length then
          set (m'.modifyThread m.running (·.modifyFrame fun f =>
            { f with want, protections := f.protections + 1 }))
        else
          set m'
          let results ← Exec.popSpread 1
          modify (·.modifyCurrent fun t => { t with handlers := t.handlers.drop 1 })
          Exec.pushResults want (.boolean true :: results) : Exec Unit) m := by
    unfold settle
    split
    · refine ⟨m.modifyCurrent (·.modifyHandler fun h => { h with wraps := h.wraps + 1 }),
        .modifyCurrent inside (.wrapHandler _), ?_⟩
      rw [if_neg (by simp)]
      rfl
    · refine ⟨m, .refl m, ?_⟩
      rw [if_neg (by simp)]
  obtain ⟨m', apart, settled⟩ := wrapped
  have inside' := apart.inside inside
  rw [settled, ← apart.running]
  split
  · rename_i more
    exact apart.trans inside (.modifyCurrent inside' (.modifyFrame (Or.inl (by
      rw [Machine.current]
      omega))))
  · have rest : Exec.Local (do
        let results ← Exec.popSpread 1
        modify (·.modifyCurrent fun t => { t with handlers := t.handlers.drop 1 })
        Exec.pushResults want (.boolean true :: results)) :=
      Exec.local_bind (Exec.local_popSpread 1) fun _ =>
        Exec.local_bind (Exec.local_modifyCurrent fun t => .dropHandlers t 1) fun _ =>
          Exec.local_pushResults _ _
    exact Stays.bind inside (show m.Stays (.ok () m') from apart)
      fun _ m'' _ inside'' => rest m'' inside''

end Machine

namespace Exec

open Machine (Apart Stays Conducts)

variable {m : Machine} {want n : Nat}

/-- Protection around a call adds a layer to what it hands over. -/
theorem guarded_conducts (h : m.Rooted) (alive : m.current.frames ≠ []) {action : Exec Unit}
    {handed : Option (Nat × List Nat × List Value)}
    (out : (m.modifyCurrent (·.pushHandler want)).Conducts 0 n handed
      (action (m.modifyCurrent (·.pushHandler want)))) :
    m.Conducts want (n + 1) handed (guarded want action m) := by
  have inside := h.running_lt
  have noted : m.Apart (m.modifyCurrent (·.pushHandler want)) :=
    .modifyCurrent inside (.pushHandler m.current want)
  have some' : 0 < (m.modifyCurrent (·.pushHandler want)).current.frames.length :=
    List.length_pos_iff.2 (noted.current.alive alive)
  simp only [guarded, bind_apply, modify_apply, get_apply]
  generalize action (m.modifyCurrent (·.pushHandler want)) = r at out ⊢
  cases out with
  | stays stays =>
    apply Conducts.stays
    cases r with
    | error fault m' => exact noted.trans inside stays
    | ok u m' =>
      have apart : m.Apart m' := noted.trans inside stays
      have settled := m'.settle_stays (apart.inside inside) some'
        (m.modifyCurrent (·.pushHandler want)).current.handlers.length want
      rw [apart.running] at settled
      exact apart.stays inside settled
  | hands switched waiting =>
    obtain ⟨m'', settled, switched', same⟩ := settle_switched h switched
    simp only [Machine.running_modifyCurrent, settled]
    exact .hands switched' (same.trans waiting)

theorem local_enter (c : Closure) (args : List Value) (want n : Nat) : Local (enter c args want n) := by
  intro m inside
  simp only [enter, bind_apply, get_apply]
  split
  · exact Apart.refl m
  · have entered : m.Apart (m.modifyCurrent fun t =>
        { t with captures := t.captures ++ c.upvalues
                 frames := { closure := c, ip := 0, base := m.current.stack.size
                             captureBase := m.current.captures.size, want, protections := n } ::
                   t.frames }) := .modifyCurrent inside (.enter _ _ _)
    exact entered.trans inside (.push (entered.inside inside) _)

theorem local_callHost (id : Nat) (args : List Value) : Local (callHost id args) :=
  local_bind local_get fun m => by
    cases m.hosts[id]? with
    | none => exact local_pure _
    | some f => exact local_onStore _

theorem local_threadArgument (function : String) (args : List Value) :
    Local (threadArgument function args) := by
  unfold threadArgument
  split
  · exact local_pure _
  · exact local_throw _

theorem local_create (args : List Value) (want : Nat) : Local (create args want) := by
  intro m inside
  simp only [create, bind_apply, get_apply]
  split
  · rename_i id _
    cases m.store.closures[id]? with
    | none => exact Apart.refl m
    | some c =>
      have made := Apart.create inside c
      exact made.trans inside (.pushResults (made.inside inside) _ _)
  · exact Apart.refl m

theorem local_dostring (args : List Value) (want : Nat) : Local (dostring args want) := by
  unfold dostring
  split
  · exact local_bind (local_ofExcept _) fun _ => local_enter _ _ _ _
  · exact local_throw _

/-- A resume hands control to a coroutine that is suspended, and does nothing of the kind otherwise. -/
theorem resume_conducts (h : m.Rooted) (args : List Value) (want : Nat) :
    m.Conducts want 0 (m.handover? (.ok (.core .resume, args))) (resume args want m) := by
  simp only [resume, bind_apply]
  cases args with
  | nil => exact .stays (Apart.refl m)
  | cons first vs =>
    cases first with
    | thread id =>
      simp only [threadArgument, List.head?_cons, pure_apply, get_apply, Machine.handover?]
      by_cases free : m.running = id ∨ m.waiting.contains id = true
      · rw [if_pos free, if_pos]
        · exact .stays (Apart.refl m)
        · simp only [List.contains_eq_mem, decide_eq_true_eq] at free
          exact Or.inl (List.mem_cons.2 (free.imp Eq.symm fun mem => mem))
      · rw [if_neg free]
        by_cases outside : m.threads.size ≤ id
        · rw [if_pos outside, if_pos (Or.inr (Or.inl outside))]
          exact .stays (Apart.refl m)
        · rw [if_neg outside]
          by_cases dead : (m.thread id).isDead = true
          · rw [if_pos dead, if_pos (Or.inr (Or.inr dead))]
            exact .stays (Apart.pushResults h.running_lt _ _)
          · have suspended : id ∉ m.running :: m.waiting := by
              simp only [not_or, List.contains_eq_mem, decide_eq_true_eq] at free
              simp only [List.mem_cons, not_or]
              exact ⟨Ne.symm free.1, free.2⟩
            have switch : m.Switch id (m.running :: m.waiting) :=
              .resume suspended (by omega) (by simpa [Thread.isDead] using dead)
            rw [if_neg dead, if_neg (by simp only [not_or]; exact ⟨suspended, outside, dead⟩)]
            simpa only [set_apply, Machine.running_deliver, Machine.waiting_deliver,
              Machine.running_modifyCurrent, Machine.waiting_modifyCurrent, List.drop_succ_cons,
              List.drop_zero] using Conducts.hands (switched_of_switch h switch want vs) rfl
    | _ => exact .stays (Apart.refl m)

theorem yield_conducts (h : m.Rooted) (args : List Value) (want : Nat) :
    m.Conducts want 0 (m.handover? (.ok (.core .yield, args))) (yield args want m) := by
  simp only [yield, bind_apply, get_apply, Machine.handover?]
  cases waiting : m.waiting with
  | nil => exact .stays (Apart.refl m)
  | cons resumer rest =>
    simp only [set_apply, Machine.deliver_control]
    exact .hands (switched_of_switch h (.yield waiting) want (.boolean true :: args)) rfl

/-- Core functions other than the protected call. -/
theorem callCoreWith_conducts (h : m.Rooted) {f : CoreFunction} (other : f ≠ .pcall)
    (protectedCall : Exec Unit) (args : List Value) (want : Nat) :
    m.Conducts want 0 (m.handover? (.ok (.core f, args))) (callCoreWith protectedCall f args want m) := by
  cases f with
  | pcall => exact absurd rfl other
  | create => exact .stays (local_create args want m h.running_lt)
  | resume => exact resume_conducts h args want
  | yield => exact yield_conducts h args want
  | status =>
    exact .stays (local_bind (local_threadArgument _ _) (fun _ => local_bind local_get fun _ =>
      local_pushResults _ _) m h.running_lt)
  | dostring => exact .stays (local_dostring args want m h.running_lt)

/-- The protected call of anything but itself. -/
theorem pcall_single_conducts (h : m.Rooted) (alive : m.current.frames ≠ []) {callee : Value}
    {rest : List Value} (other : callee ≠ .core .pcall) (want : Nat) :
    m.Conducts want 1 (m.handover? (m.callTarget callee rest)) (pcall (callee :: rest) want m) := by
  have inside := h.running_lt
  have noted : m.Apart (m.modifyCurrent (·.pushHandler want)) :=
    .modifyCurrent inside (.pushHandler m.current want)
  have refused (fault : Fault) : m.Stays (pushFailure want fault m) :=
    local_pushResults _ _ m inside
  rw [pcall]
  case x_2 => exact other
  simp only [bind_apply, get_apply]
  cases target : m.callTarget callee rest with
  | error fault => exact .stays (refused fault)
  | ok found =>
    obtain ⟨v, args⟩ := found
    cases v with
    | closure id =>
      simp only [bind_apply, get_apply]
      cases m.store.closures[id]? with
      | none => exact .stays (refused _)
      | some c =>
        simp only [bind_apply, modify_apply]
        exact .stays (noted.stays inside (local_enter c args want 1 _ (noted.inside inside)))
    | host id name =>
      apply Conducts.stays
      have called := local_callHost id args m inside
      simp only [bind_apply, get_apply]
      cases done : callHost id args m with
      | ok results m' =>
        rw [done] at called
        exact called.trans inside (.pushResults (called.inside inside) _ _)
      | error fault m' =>
        rw [done] at called
        exact called.trans inside (.pushResults (called.inside inside) _ _)
    | core f =>
      by_cases itself : f = .pcall
      · subst itself
        exact guarded_conducts h alive (.stays (Apart.refl _))
      · rw [← Machine.handover?_modifyCurrent m (·.pushHandler want)]
        exact guarded_conducts h alive
          (callCoreWith_conducts (h.apart noted) itself (throw .stackOverflow) args 0)
    | _ => exact .stays (refused _)

/-- A chain of protected calls. -/
theorem pcall_conducts (h : m.Rooted) (alive : m.current.frames ≠ []) (args : List Value) (want : Nat) :
    m.Conducts want (Machine.protectedLayers args) (m.handover? (m.protectedTarget args))
      (pcall args want m) := by
  induction args generalizing m want with
  | nil => exact .stays (local_pushResults _ _ m h.running_lt)
  | cons callee rest ih =>
    by_cases nested : callee = .core .pcall
    · subst nested
      have noted : m.Apart (m.modifyCurrent (·.pushHandler want)) :=
        .modifyCurrent h.running_lt (.pushHandler m.current want)
      have inner := ih (h.apart noted) (noted.current.alive alive) 0
      rw [Machine.handover?_modifyCurrent, Machine.protectedTarget_congr
        (Machine.store_modifyCurrent (f := (·.pushHandler want))) rfl rest] at inner
      rw [pcall]
      exact guarded_conducts h alive inner
    · have layers : Machine.protectedLayers (callee :: rest) = 1 := by
        rw [Machine.protectedLayers]
        exact fun args same => nested (List.cons.inj same).1
      have target : m.protectedTarget (callee :: rest) = m.callTarget callee rest := by
        rw [Machine.protectedTarget]
        exact nested
      rw [layers, target]
      exact pcall_single_conducts h alive nested want

/-- A call of any value hands control over if and only if it comes to a resume or yield that can. -/
theorem call_conducts (h : m.Rooted) (alive : m.current.frames ≠ []) (callee : Value)
    (args : List Value) (want : Nat) :
    m.Conducts want (m.layers callee args) (m.handover? (m.finalTarget callee args))
      (call callee args want m) := by
  have inside := h.running_lt
  simp only [call, bind_apply, get_apply, Machine.layers, Machine.finalTarget]
  cases target : m.callTarget callee args with
  | error fault => exact .stays (Apart.refl m)
  | ok found =>
    obtain ⟨v, given⟩ := found
    simp only [ofExcept_ok]
    cases v with
    | closure id =>
      simp only [bind_apply, get_apply]
      cases m.store.closures[id]? with
      | none => exact .stays (Apart.refl m)
      | some c => exact .stays (local_enter c given want 0 m inside)
    | host id name =>
      exact .stays (local_bind (local_callHost id given) (fun _ => local_pushResults _ _) m inside)
    | core f =>
      cases f with
      | pcall => exact pcall_conducts h alive given want
      | _ => exact callCoreWith_conducts h (by simp) _ given want
    | _ => exact .stays (Apart.refl m)

end Exec

end ScriptEngine
