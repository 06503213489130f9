import ScriptEngine.Proofs.Machine.Restoration

/-!
# One handler for each protected call

A handler stands for a protected call that is under way, and for nothing else. What the handlers of a
thread note can be read off its frames (`Frame.owed`): each frame owes an end to the protected calls that
it was entered through, and what they noted is where the frame begins. The only other protected calls are
those around the resume or yield that the thread waits in. So a handler is gone as soon as its call is
over, and a fault never goes to a call that has ended (`Reachable.handlers_accounted`).
-/

set_option linter.dupNamespace false

namespace ScriptEngine

/-- What a handler noted of its thread: the numbers of frames, of stack cells and of captured cells. -/
structure Snapshot where
  frames : Nat
  stack : Nat
  captures : Nat
  deriving DecidableEq

namespace Snapshot

/-- The thread was no higher in any respect. -/
def Below (s t : Snapshot) : Prop := s.frames ≤ t.frames ∧ s.stack ≤ t.stack ∧ s.captures ≤ t.captures

theorem Below.refl (s : Snapshot) : s.Below s := ⟨Nat.le_refl _, Nat.le_refl _, Nat.le_refl _⟩

theorem Below.trans {s t u : Snapshot} (h : s.Below t) (h' : t.Below u) : s.Below u :=
  ⟨Nat.le_trans h.1 h'.1, Nat.le_trans h.2.1 h'.2.1, Nat.le_trans h.2.2 h'.2.2⟩

end Snapshot

def Handler.snapshot (h : Handler) : Snapshot := ⟨h.frames, h.stack, h.captures⟩

/-- Where the thread stands now. -/
def Thread.snapshot (t : Thread) : Snapshot := ⟨t.frames.length, t.stack.size, t.captures.size⟩

/-- What the protected calls noted that the frames have to end, those of the innermost frame first. -/
def Frame.owed : List Frame → List Snapshot
  | [] => []
  | f :: rest => List.replicate f.protections ⟨rest.length, f.base, f.captureBase⟩ ++ owed rest

/-- The frames start no higher than the given sizes, and each no higher than the one above it. -/
def Frame.Nested : List Frame → Nat → Nat → Prop
  | [], _, _ => True
  | f :: rest, stack, captures => f.base ≤ stack ∧ f.captureBase ≤ captures ∧ Nested rest f.base f.captureBase

/-- The handlers are those of the protected calls under way, in their order. -/
structure Thread.Accounted (t : Thread) : Prop where
  /-- There are as many as the frames and the pending resume or yield have to end. -/
  count : t.handlers.length = (t.frames.map (·.protections)).sum + t.awaitingProtections
  /-- Each noted the state in which its call was made. -/
  noted : t.handlers.map (·.snapshot) =
    List.replicate t.awaitingProtections t.snapshot ++ Frame.owed t.frames
  /-- The inner ones, which come first, noted no less than the outer ones. -/
  ordered : t.handlers.Pairwise fun inner outer => outer.snapshot.Below inner.snapshot
  /-- None noted more than there is. -/
  bounded : ∀ h ∈ t.handlers, h.snapshot.Below t.snapshot

/-! ## Owed snapshots -/

namespace Frame

theorem length_owed (frames : List Frame) : (owed frames).length = (frames.map (·.protections)).sum := by
  induction frames with
  | nil => rfl
  | cons f rest ih => simp [owed, ih]

theorem owed_below {frames : List Frame} {stack captures : Nat} (nested : Nested frames stack captures) :
    ∀ s ∈ owed frames, s.Below ⟨frames.length, stack, captures⟩ := by
  induction frames generalizing stack captures with
  | nil => simp [owed]
  | cons f rest ih =>
    obtain ⟨base, captureBase, below⟩ := nested
    have here : Snapshot.Below ⟨rest.length, f.base, f.captureBase⟩
        ⟨(f :: rest).length, stack, captures⟩ := ⟨Nat.le_succ _, base, captureBase⟩
    intro s mem
    rcases List.mem_append.1 mem with mem | mem
    · rw [List.eq_of_mem_replicate mem]
      exact here
    · exact (ih below s mem).trans here

theorem owed_pairwise {frames : List Frame} {stack captures : Nat} (nested : Nested frames stack captures) :
    (owed frames).Pairwise fun inner outer => outer.Below inner := by
  induction frames generalizing stack captures with
  | nil => exact .nil
  | cons f rest ih =>
    refine List.pairwise_append.2 ⟨List.pairwise_replicate.2 (Or.inr (.refl _)), ih nested.2.2, ?_⟩
    intro inner mem outer mem'
    rw [List.eq_of_mem_replicate mem]
    exact owed_below nested.2.2 outer mem'

end Frame

/-- Order and bounds follow from what the handlers noted, if the frames are nested. -/
theorem Thread.Accounted.of_noted {t : Thread} (nested : Frame.Nested t.frames t.stack.size t.captures.size)
    (noted : t.handlers.map (·.snapshot) =
      List.replicate t.awaitingProtections t.snapshot ++ Frame.owed t.frames) : t.Accounted where
  count := by
    have length := congrArg List.length noted
    rw [List.length_map, List.length_append, List.length_replicate, Frame.length_owed] at length
    omega
  noted := noted
  ordered := by
    rw [← List.pairwise_map (f := Handler.snapshot) (R := fun inner outer => outer.Below inner), noted]
    refine List.pairwise_append.2
      ⟨List.pairwise_replicate.2 (Or.inr (.refl _)), Frame.owed_pairwise nested, ?_⟩
    intro inner mem outer mem'
    rw [List.eq_of_mem_replicate mem]
    exact Frame.owed_below nested outer mem'
  bounded h mem := by
    have mem := List.mem_map_of_mem (f := (·.snapshot)) mem
    rw [noted] at mem
    rcases List.mem_append.1 mem with mem | mem
    · rw [List.eq_of_mem_replicate mem]
      exact .refl _
    · exact Frame.owed_below nested _ mem

/-! ## Threads in order -/

theorem Group.noted_eq {n want frames stack captures : Nat} {hs : List Handler}
    (group : Group n want frames stack captures hs) :
    hs.map (·.snapshot) = List.replicate n ⟨frames, stack, captures⟩ := by
  rw [List.eq_replicate_iff, List.length_map]
  refine ⟨group.length, fun s mem => ?_⟩
  obtain ⟨h, among, rfl⟩ := List.mem_map.1 mem
  obtain ⟨frames, stack, captures⟩ := group.noted h among
  rw [Handler.snapshot, frames, stack, captures]

namespace Pends

variable {frames : List Frame} {handlers : List Handler} {stack captures want n : Nat}

theorem nested (h : Pends frames handlers stack captures want n) :
    Frame.Nested frames stack captures := by
  induction h with
  | idle => trivial
  | call awaits _ _ ih => exact ⟨awaits.base, awaits.captureBase, ih⟩

/-- The calls that the results end noted the state in which they are awaited, the others what the frames
owe. -/
theorem noted (h : Pends frames handlers stack captures want n) :
    handlers.map (·.snapshot) =
      List.replicate n ⟨frames.length, stack, captures⟩ ++ Frame.owed frames := by
  induction h with
  | idle => rfl
  | call awaits group below ih =>
    rw [List.map_append, group.noted_eq, ih]
    rfl

end Pends

namespace Thread

variable {t : Thread}

theorem Blocked.accounted (h : t.Blocked) : t.Accounted := .of_noted (Pends.nested h) (Pends.noted h)

theorem Active.accounted (h : t.Active) : t.Accounted := by
  obtain ⟨none', upright⟩ := h
  cases frames : t.frames with
  | nil =>
    have handlers : t.handlers = [] := by simpa only [frames] using upright
    apply Accounted.of_noted
    · rw [frames]
      trivial
    · rw [handlers, none', frames]
      rfl
  | cons f rest =>
    have upright : Upright f rest t.handlers t.stack.size t.captures.size := by
      simpa only [frames] using upright
    have base := upright.rests.base_lt
    have captureBase := upright.rests.captureBase_le
    apply Accounted.of_noted
    · rw [frames]
      exact ⟨by omega, by omega, upright.below.nested⟩
    · rw [none', frames]
      exact upright.below.noted

end Thread

/-! ## Every run -/

namespace Machine

variable {m : Machine}

/-- In every run in which the protected call is never applied to itself, every thread has exactly the
handlers of its protected calls under way, and for the running thread all of these are owed by frames. -/
theorem Reachable.handlers_accounted (h : m.Reachable Doubles) (id : Nat) :
    (m.thread id).Accounted ∧ m.current.awaitingProtections = 0 := by
  have ordered := h.in_order
  refine ⟨?_, ordered.current.1⟩
  by_cases itself : id = m.running
  · rw [itself]
    exact ordered.current.accounted
  · by_cases inside : id < m.threads.size
    · exact (ordered.others id inside itself).accounted
    · have none' : m.thread id = {} := by simp [thread, Nat.le_of_not_lt inside]
      rw [none']
      exact (Thread.blocked_of_dead rfl rfl rfl).accounted

/-- A chunk that calls itself under protection: the handler is owed by the frame that was entered. -/
theorem Reachable.handlers_accounted_nested : ∃ m : Machine, m.Reachable Doubles ∧
    m.current.handlers.map (·.snapshot) = [⟨1, 1, 0⟩] ∧ m.current.frames.map (·.protections) = [1, 0] ∧
    (m.thread m.running).Accounted ∧ m.current.awaitingProtections = 0 := by
  obtain ⟨m, u, reach, running, -, threads, next, asked, closures, config⟩ :=
    (((Reachable.start {}).setGlobal "p" (.core .pcall)).setGlobal "s"
      (.closure (Library.machine {}).store.closures.size)).launch_call
      (((Fresh.machine (by decide)).setGlobal _ _).setGlobal _ _) (fun _ _ _ => not_doubles_getGlobal)
      ((global_setGlobal_ne _ (by decide) _).trans (global_setGlobal_self _ _ rfl))
      (global_setGlobal_self _ _ rfl) rfl
  have current : m.current = ⟨#[0, 1, 2], #[], [⟨⟨u, #[]⟩, 2, 0, 0, 0, 0, false⟩], [], 0, 0⟩ := by
    rw [Machine.current, thread, threads, running]
    rfl
  have free : ¬m.Doubles := by
    rintro ⟨callee, args, want, rest, asked', target⟩
    rw [asked] at asked'
    cases asked'
    cases target
  have h := reach.in_order
  obtain ⟨op, a, b, poises⟩ := h.poises (congrArg Thread.frames current)
  obtain ⟨alone, thread⟩ := poises.taken h
  obtain ⟨rfl, rfl, rfl⟩ : op = .call ∧ a = 1 ∧ b = 0 := by
    have same := poises.instruction.symm.trans next
    cases same
    exact ⟨rfl, rfl, rfl⟩
  have sane := h.sane.alone alone
  have guarded := sane.alone (.modifyCurrent sane (·.pushHandler 0))
  have found : m.taken.store.closures[(Library.machine {}).store.closures.size]? = some ⟨u, #[]⟩ := by
    have kept : m.taken.store.closures = m.store.closures := by rw [taken, next]; rfl
    rw [kept, closures]
    exact Array.getElem?_push_size
  have limits : (m.taken.modifyCurrent (·.pushHandler 0)).config = {} := by
    rw [config_setGlobal, config_setGlobal, config_machine] at config
    rw [config_modifyCurrent, taken, next]
    exact config
  have before : (m.taken.modifyCurrent (·.pushHandler 0)).current =
      ⟨#[0], #[], [⟨⟨u, #[]⟩, 3, 0, 0, 0, 0, false⟩], [⟨1, 1, 0, 0, 0⟩], 0, 0⟩ := by
    rw [current_modifyCurrent sane.running_lt, thread, current]
    rfl
  obtain ⟨limit, -⟩ | ⟨-, m', entered, -, -, after⟩ := Exec.enter_cases guarded ⟨u, #[]⟩ [] 0 1
  · rw [AtLimit, limits, before] at limit
    simp at limit
  · have step : Exec.step m = .ok none m' := by
      obtain direct | ⟨one, -⟩ := poises.step_pcall asked rfl
      · rw [direct]
        have called : Exec.pcall [.closure (Library.machine {}).store.closures.size] 0 m.taken =
            .ok () m' := by
          rw [← entered]
          simp only [Exec.pcall, Exec.bind_apply, Exec.get_apply, callTarget, found]
          rfl
        rw [Exec.bind_apply, called]
        rfl
      · cases one
    have reach' := reach.step free step
    refine ⟨m', reach', ?_, ?_, reach'.handlers_accounted m'.running⟩
    · rw [after, before]
      rfl
    · rw [after, before]
      rfl

end Machine

end ScriptEngine
