import ScriptEngine.Proofs.Machine.Session

/-!
# Coroutines

The threads that run or wait form a stack with the program's thread at the bottom. A coroutine on it is
alive; one that is not is suspended or dead, and once it is dead it stays so (`Moves.dead`). Control goes
from one thread to another together with values, which arrive exactly as the thread that gets them asked
for, and steps of other kinds do not concern other threads at all (`Attained.exchanges`).
-/

set_option linter.dupNamespace false

namespace ScriptEngine

namespace Session

open Machine

variable {s s' : Session} {m : Machine} {id : Nat}

theorem Attained.next (h : s.Attained) (move : Moves s s') : s'.Attained := by
  obtain ⟨config, run⟩ := h
  exact ⟨config, run.tail move⟩

theorem orderly_of_run (h : s.Orderly) (run : Relation.ReflTransGen Moves s s') : s'.Orderly := by
  induction run with
  | refl => exact h
  | tail _ move ih => exact move.orderly ih

/-- Everything that comes about is in order. -/
theorem Attained.orderly (h : s.Attained) : s.Orderly := by
  obtain ⟨config, run⟩ := h
  exact orderly_of_run (start_orderly config) run

/-! ## Death -/

/-- A coroutine without frames is not on the stack of threads. -/
theorem Orderly.off (h : s.Orderly) (coroutine : 0 < id) (dead : (s.machine.thread id).frames = []) :
    id ∉ s.machine.running :: s.machine.waiting := by
  intro mem
  cases busy : s.busy with
  | true => exact h.alive busy id mem dead
  | false =>
    have idle := (h.idle busy).1
    have bottom := h.rooted.bottom
    rw [idle] at mem bottom
    simp only [List.mem_singleton, List.getLast?_singleton, Option.some.injEq] at mem bottom
    omega

/-- A dead coroutine does not get a frame in a single move. -/
theorem Moves.dead (move : Moves s s') (h : s.Orderly) (coroutine : 0 < id)
    (inside : id < s.machine.threads.size) (dead : (s.machine.thread id).frames = []) :
    id < s'.machine.threads.size ∧ (s'.machine.thread id).frames = [] := by
  have off := h.off coroutine dead
  have away : id ≠ s.machine.running := fun itself => off (by simp [itself])
  have does (busy : s.busy = true) :=
    step_does h.rooted (h.grounded _) (h.alive busy _ List.mem_cons_self)
  -- control goes to threads that are alive
  have delivered {m : Machine} {target : Nat} {rest : List Nat} {vs : List Value} (busy : s.busy = true)
      (delivers : s.machine.Delivers m target rest vs) :
      id < m.threads.size ∧ (m.thread id).frames = [] := by
    have alive := (delivers.switch.sound h.rooted fun k mem =>
      h.alive busy k (List.mem_cons_of_mem _ mem)).1
    have other : id ≠ target := by
      rintro rfl
      exact alive dead
    rw [delivers.others id away other, delivers.size]
    exact ⟨inside, dead⟩
  cases move with
  | prepare threads _ _ =>
    simp only [thread, threads] at dead ⊢
    exact ⟨inside, dead⟩
  | call idle _ entered =>
    have reset := (h.reset idle).1
    have apart := (enter_current reset.rooted.running_lt entered).1
    have old : id < (s.machine.modifyThread 0 fun _ => {}).threads.size := by simpa using inside
    refine ⟨Nat.lt_of_lt_of_le old apart.size, ?_⟩
    simp only
    rw [apart.others id old away, thread_modifyThread_ne (by omega)]
    exact dead
  | refuse idle _ entered =>
    simp only [Exec.enter, Exec.bind_apply, Exec.get_apply] at entered
    split at entered
    · cases entered
      simp only
      rw [thread_modifyThread_ne (by omega), size_modifyThread]
      exact ⟨inside, dead⟩
    · cases entered
  | step busy step =>
    have does := does busy
    rw [step] at does
    generalize s.machine.deed = deed at does
    cases does with
    | proceeds apart =>
      refine ⟨Nat.lt_of_lt_of_le inside apart.size, ?_⟩
      simp only
      rw [apart.others id inside away]
      exact dead
    | hands delivers _ => exact delivered busy delivers
    | returns _ delivers _ => exact delivered busy delivers
  | finish busy step =>
    have does := does busy
    rw [step] at does
    generalize s.machine.deed = deed at does
    cases does with
    | completes _ _ _ size others _ =>
      simp only
      rw [others id away, size]
      exact ⟨inside, dead⟩
  | @fault m m' _ _ busy step unwound =>
    have does := does busy
    rw [step] at does
    generalize s.machine.deed = deed at does
    cases does with
    | fails apart =>
      have failed := h.apart busy apart
      have unwound := unwind_unwound failed.rooted failed.grounded (failed.alive rfl) unwound
      have still : (m.thread id).frames = [] := by
        rw [apart.others id inside away]
        exact dead
      refine ⟨Nat.lt_of_lt_of_le inside (unwound.size ▸ apart.size), ?_⟩
      rcases unwound.each id with same | ended | itself
      · simp only
        rw [same]
        exact still
      · exact ended
      · exact absurd (unwound.fewer id (by simp [itself])) (failed.off coroutine still)

theorem dead_of_run (run : Relation.ReflTransGen Moves s s') (h : s.Orderly) (coroutine : 0 < id)
    (inside : id < s.machine.threads.size) (dead : (s.machine.thread id).frames = []) :
    id < s'.machine.threads.size ∧ (s'.machine.thread id).frames = [] := by
  induction run with
  | refl => exact ⟨inside, dead⟩
  | tail run move ih => exact move.dead (orderly_of_run h run) coroutine ih.1 ih.2

end Session

/-! ## What a coroutine is doing -/

/-- The status says where the thread is and whether it has frames. -/
structure Machine.Classifies (m : Machine) (id : Nat) : Prop where
  running : m.status id = "running" ↔ id = m.running
  normal : m.status id = "normal" ↔ id ∈ m.waiting
  suspended : m.status id = "suspended" ↔
    id ∉ m.running :: m.waiting ∧ (m.thread id).frames ≠ []
  dead : m.status id = "dead" ↔ id ∉ m.running :: m.waiting ∧ (m.thread id).frames = []

theorem Machine.Rooted.classifies {m : Machine} (h : m.Rooted) (id : Nat) : m.Classifies id := by
  have distinct : m.running ∉ m.waiting := (List.nodup_cons.1 h.distinct).1
  have status : m.status id = if id = m.running then "running" else if id ∈ m.waiting then "normal"
      else if (m.thread id).frames = [] then "dead" else "suspended" := by
    simp only [Machine.status, Thread.isDead, List.contains_eq_mem, decide_eq_true_eq, List.isEmpty_iff,
      @eq_comm _ m.running id]
  by_cases itself : id = m.running
  · subst itself
    constructor <;> simp [status, distinct]
  · by_cases waits : id ∈ m.waiting
    · constructor <;> simp [status, itself, waits]
    · by_cases dead : (m.thread id).frames = []
      · constructor <;> simp [status, itself, waits, dead]
      · constructor <;> simp [status, itself, waits, dead]

namespace Session

open Machine

variable {s : Session}

/-- Whatever host and machine do with whatever units of code: the stack of threads has the program's
thread at its bottom and no thread twice; while a call is under way all threads on it have frames;
the status of a coroutine says where it is; and a coroutine that is dead stays so. -/
theorem Attained.stack_well_formed (h : s.Attained) :
    (s.machine.running :: s.machine.waiting).getLast? = some 0 ∧
    (s.machine.running :: s.machine.waiting).Nodup ∧
    (∀ id ∈ s.machine.running :: s.machine.waiting, id < s.machine.threads.size) ∧
    (s.busy = true → ∀ id ∈ s.machine.running :: s.machine.waiting, (s.machine.thread id).frames ≠ []) ∧
    ∀ id, 0 < id → id < s.machine.threads.size → s.machine.Classifies id ∧
      ((s.machine.thread id).frames = [] → ∀ s', Relation.ReflTransGen Moves s s' →
        (s'.machine.thread id).frames = [] ∧ id ∉ s'.machine.running :: s'.machine.waiting ∧
          s'.machine.status id = "dead") := by
  have orderly := h.orderly
  refine ⟨orderly.rooted.bottom, orderly.rooted.distinct, orderly.rooted.bound, orderly.alive, ?_⟩
  intro id coroutine inside
  refine ⟨orderly.rooted.classifies id, fun dead s' run => ?_⟩
  have later := orderly_of_run orderly run
  have still := (dead_of_run run orderly coroutine inside dead).2
  have off := later.off coroutine still
  exact ⟨still, off, (later.rooted.classifies id).dead.2 ⟨off, still⟩⟩

/-- The session after `n` steps, if none of them ends the call. -/
def advanced? (s : Session) : Nat → Option Session
  | 0 => some s
  | n + 1 =>
    match Exec.step s.machine with
    | .ok none m => advanced? ⟨m, true, s.noted⟩ n
    | _ => none

theorem Attained.advanced? {n : Nat} {t : Session} (h : s.Attained) (busy : s.busy = true)
    (ran : s.advanced? n = some t) : t.Attained ∧ t.busy = true := by
  induction n generalizing s with
  | zero =>
    cases ran
    exact ⟨h, busy⟩
  | succ n ih =>
    cases step : Exec.step s.machine with
    | error fault m => simp [Session.advanced?, step] at ran
    | ok results m =>
      cases results with
      | some results => simp [Session.advanced?, step] at ran
      | none =>
        simp only [Session.advanced?, step] at ran
        exact ih (h.next (.step busy step)) rfl ran

/-- The session `n` steps into the call of a program by a host that has supplied the closure `f`. -/
def called? (f program : Closure) (n : Nat) : Option Session :=
  let m : Machine := { config := {}, store := { closures := #[f] }, threads := #[{}] }
  match Exec.enter program [] 0 0 (m.modifyThread 0 fun _ => {}) with
  | .ok () m => advanced? ⟨m, true, fun _ => none⟩ n
  | _ => none

theorem attained_of_called? {f program : Closure} {n : Nat} {p : Session → Bool}
    (h : (called? f program n).any p = true) : ∃ s : Session, s.Attained ∧ s.busy = true ∧ p s = true := by
  obtain ⟨s, ran, tested⟩ := (Option.any_eq_true _ _).1 h
  have prepared : Attained ⟨{ config := {}, store := { closures := #[f] }, threads := #[{}] }, false, fun _ => none⟩ :=
    ⟨{}, .single (.prepare rfl rfl rfl)⟩
  simp only [called?] at ran
  split at ran
  · rename_i entered
    obtain ⟨attained, busy⟩ := (prepared.next (.call rfl rfl entered)).advanced? rfl ran
    exact ⟨s, attained, busy, tested⟩
  · cases ran

/-- Whether a thread is about to resume a new coroutine with no values. -/
def isResume : Deed → Bool
  | .hands 1 [0] [] 1 0 => true
  | _ => false

theorem eq_of_isResume {deed : Deed} (h : isResume deed = true) : deed = .hands 1 [0] [] 1 0 := by
  unfold isResume at h
  split at h
  · rfl
  · cases h

/-- A host calls a program of its own making, which makes a coroutine and is about to resume it. -/
theorem attained_resume : ∃ s : Session, s.Attained ∧ s.busy = true ∧ s.machine.threads.size = 2 ∧
    s.machine.running = 0 ∧ s.machine.waiting = [] ∧ s.machine.deed = .hands 1 [0] [] 1 0 ∧
    s.asked 1 = none := by
  let f : Closure := ⟨⟨1, "f", "test", 0, false, #[.make .ret 0 0], #[1], #[], []⟩, #[]⟩
  let program : Closure := ⟨⟨0, "main chunk", "test", 0, true, #[.make .loadK 0 0, .make .loadK 1 0,
    .make .loadK 2 0, .make .call 1 1, .make .call 1 1, .make .ret 0 0], #[1, 1, 1, 1, 1, 1],
    #[.core .resume, .core .create, .closure 0], []⟩, #[]⟩
  have ran : (called? f program 4).any (fun s => isResume s.machine.deed &&
    decide (s.machine.threads.size = 2 ∧ s.machine.running = 0 ∧ s.machine.waiting = [] ∧ s.asked 1 = none)) =
      true := by decide +kernel
  obtain ⟨s, attained, busy, tested⟩ := attained_of_called? ran
  simp only [Bool.and_eq_true, decide_eq_true_eq] at tested
  obtain ⟨resume, size, running, waiting, asked⟩ := tested
  exact ⟨s, attained, busy, size, running, waiting, eq_of_isResume resume, asked⟩

theorem Attained.stack_well_formed_suspended : ∃ s : Session, s.Attained ∧ s.busy = true ∧
    s.machine.threads.size = 2 ∧ s.machine.Classifies 1 ∧ (s.machine.thread 0).frames ≠ [] := by
  obtain ⟨s, h, busy, size, running, -⟩ := attained_resume
  obtain ⟨-, -, -, alive, each⟩ := h.stack_well_formed
  exact ⟨s, h, busy, size, (each 1 (by decide) (by omega)).1, alive busy 0 (by simp [running])⟩

/-! ## What threads give each other -/

/-- Thread `id` has got control and, on top of its stack, the values `vs` as it asked for them: after a
`true` for each protected call around its resume or yield, and as many as that wanted. A coroutine that
has not run yet gets them as one multi-value in its first slot. Nothing else of it has changed, and no
third thread has. -/
structure Receives (s : Session) (m : Machine) (id : Nat) (vs : List Value) : Prop where
  running : m.running = id
  others : ∀ k, k ≠ s.machine.running → k ≠ id → m.thread k = s.machine.thread k
  received : ∃ want layers, (s.asked id).getD (0, 0) = (want, layers) ∧
    (∃ cells : Array Nat, cells.size = slots want ∧ m.thread id =
      { s.machine.thread id with
        stack := (s.machine.thread id).stack ++ cells
        handlers := (s.machine.thread id).handlers.drop layers
        awaitingProtections := 0 }) ∧
    m.topValues (slots want) = delivered want (List.replicate layers (Value.boolean true) ++ vs)
  first : s.asked id = none → (s.machine.thread id).stack = #[]

/-- The thread that gets control waits for what it asked for. -/
theorem Orderly.receives (h : s.Orderly) (busy : s.busy = true) {m : Machine} {id : Nat}
    {rest : List Nat} {vs : List Value} (delivers : s.machine.Delivers m id rest vs) :
    s.Receives m id vs := by
  obtain ⟨alive, bound, -⟩ := delivers.switch.sound h.rooted fun k mem =>
    h.alive busy k (List.mem_cons_of_mem _ mem)
  have other : id ≠ s.machine.running := delivers.switch.ne h.rooted.distinct
  have awaits := h.awaits id (bound id List.mem_cons_self) other alive
  have values : m.topValues (slots (s.machine.thread id).awaiting) =
      delivered (s.machine.thread id).awaiting
        (List.replicate (s.machine.thread id).awaitingProtections (Value.boolean true) ++ vs) := by
    rw [← length_delivered _ (List.replicate (s.machine.thread id).awaitingProtections (Value.boolean true) ++ vs)]
    refine topValues_withCells (t := { s.machine.thread id with
      handlers := (s.machine.thread id).handlers.drop (s.machine.thread id).awaitingProtections
      awaitingProtections := 0 }) ?_ (delivers.store.trans store_deliver)
    rw [length_delivered, Machine.current, delivers.running]
    exact delivers.target
  refine ⟨delivers.running, delivers.others,
    ⟨(s.machine.thread id).awaiting, (s.machine.thread id).awaitingProtections, ?_, ⟨_, ?_, delivers.target⟩,
      values⟩, fun none' => ?_⟩
  · cases asked : s.asked id with
    | some r =>
      rw [asked] at awaits
      rw [Option.getD_some, awaits.1, awaits.2]
    | none =>
      rw [asked] at awaits
      obtain ⟨c, new⟩ := awaits
      rw [new]
      rfl
  · simp
  · rw [none'] at awaits
    obtain ⟨c, new⟩ := awaits
    rw [new]
    rfl

end Session

end ScriptEngine
