import ScriptEngine.Proofs.Machine.Locality
import ScriptEngine.Proofs.Machine.Steps

/-!
# What a step does to the other threads

What the next step does to threads other than the running one can be read off the machine (`deed`):
nothing, unless it comes to a resume or yield that hands control over or returns from the outermost
frame of a coroutine. Then the thread that gets control is given the values that it waits for
(`Delivers`), and no third thread changes. This is proved for every step of every program (`step_does`).
-/

set_option linter.dupNamespace false

namespace ScriptEngine

/-- What a step does to the threads other than the running one. -/
inductive Deed where
  | alone
  /-- Control and values go to thread `id`, and `rest` wait then. The running thread waits for `want`
  results under `layers` protected calls. -/
  | hands (id : Nat) (rest : List Nat) (vs : List Value) (want layers : Nat)
  /-- The running coroutine ends and leaves its results to the thread that resumed it. -/
  | returns (resumer : Nat) (rest : List Nat) (results : List Value)
  /-- The program ends. -/
  | completes (results : List Value)

/-- The thread waits for `want` results under `n` more protected calls. -/
structure Thread.Suspends (t t' : Thread) (want n : Nat) : Prop where
  awaiting : t'.awaiting = want
  protections : t'.awaitingProtections = t.awaitingProtections + n
  alive : t.frames ≠ [] → t'.frames ≠ []
  grounded : t.frames ≠ [] → t.Grounded → t'.Grounded

/-- The thread has left its outermost frame. -/
structure Thread.Ends (t t' : Thread) : Prop where
  dead : t'.frames = []
  grounded : t.Grounded → t'.Grounded

namespace Machine

/-- What the next step does. -/
def deed (m : Machine) : Deed :=
  match m.next? with
  | some (.ret, a, _) =>
    match m.current.frames, m.waiting with
    | [_], [] => .completes (m.spread a)
    | [_], resumer :: rest => .returns resumer rest (m.spread a)
    | _, _ => .alone
  | _ =>
    match m.nextCall? with
    | some (callee, args, want) =>
      match m.handover? (m.finalTarget callee args) with
      | some (id, rest, vs) => .hands id rest vs want (m.layers callee args)
      | none => .alone
    | none => .alone

/-- Thread `id` has got control and the values that it waited for; `rest` wait. Only it and the thread
that ran have changed. -/
structure Delivers (m m' : Machine) (id : Nat) (rest : List Nat) (vs : List Value) : Prop where
  size : m'.threads.size = m.threads.size
  running : m'.running = id
  waiting : m'.waiting = rest
  switch : m.Switch id rest
  store : m'.store = (m.deliver id vs).store
  target : m'.thread id = (m.thread id).receive m.store.cells.size
  others : ∀ k, k ≠ m.running → k ≠ id → m'.thread k = m.thread k

/-- What comes of a step that does the deed. -/
inductive Does (m : Machine) : Deed → EStateM.Result Fault Machine (Option (List Value)) → Prop where
  | proceeds {m' : Machine} (apart : m.Apart m') : Does m .alone (.ok none m')
  | fails {m' : Machine} {fault : Fault} (apart : m.Apart m') : Does m .alone (.error fault m')
  | hands {m' : Machine} {id : Nat} {rest : List Nat} {vs : List Value} {want layers : Nat}
      (delivers : m.Delivers m' id rest vs)
      (caller : m.current.Suspends (m'.thread m.running) want layers) :
      Does m (.hands id rest vs want layers) (.ok none m')
  | returns {m' : Machine} {resumer : Nat} {rest : List Nat} {results : List Value}
      (waiting : m.waiting = resumer :: rest)
      (delivers : m.Delivers m' resumer rest (.boolean true :: results))
      (caller : m.current.Ends (m'.thread m.running)) :
      Does m (.returns resumer rest results) (.ok none m')
  | completes {m' : Machine} {results : List Value} (idle : m.waiting = [])
      (running : m'.running = m.running) (waiting : m'.waiting = m.waiting)
      (size : m'.threads.size = m.threads.size)
      (others : ∀ k, k ≠ m.running → m'.thread k = m.thread k)
      (caller : m.current.Ends m'.current) : Does m (.completes results) (.ok (some results) m')

variable {m m' : Machine} {f : Frame} {rest : List Frame}

theorem advance_apart (inside : m.running < m.threads.size) : m.Apart m.advance :=
  .modifyCurrent inside (.modifyFrame (Or.inr fun _ => ⟨rfl, rfl⟩))

theorem spread_advance (inside : m.running < m.threads.size) (frames : m.current.frames = f :: rest)
    (n : Nat) : m.advance.spread n = m.spread n := by
  simp only [spread, current_advance inside frames]
  rfl

/-! ## Calls -/

/-- With its address moved on and the operands gone the machine hands over what it did before. -/
theorem Switched.delivers {want n id : Nat} {vs : List Value} {g : Thread → Thread}
    (inside : m.running < m.threads.size) (distinct : (m.running :: m.waiting).Nodup)
    (proceeds : m.current.Proceeds (g m.current))
    (switched : (m.modifyCurrent g).Switched m' want n id vs) :
    m.Delivers m' id m'.waiting vs ∧ m.current.Suspends (m'.thread m.running) want n := by
  have running := switched.running
  have other : id ≠ m.running := by
    have := switched.switch.ne distinct
    rwa [running] at this
  have same : (m.modifyCurrent g).thread id = m.thread id := thread_modifyCurrent_ne other
  have switch := switched.switch
  have store := switched.store
  have target := switched.target
  rw [running] at switch store target
  refine ⟨⟨by simpa using switched.size, running, rfl, switch.of_thread other, ?_, ?_, ?_⟩, ?_⟩
  · rw [store, store_deliver, store_deliver, same]
    rfl
  · rw [target, same]
    rfl
  · intro k away away'
    rw [switched.others k away (by rw [running]; exact away')]
    exact thread_modifyCurrent_ne away
  · obtain ⟨hs, guards, caller⟩ := switched.caller
    rw [current_modifyCurrent inside] at guards caller
    rw [running_modifyCurrent] at caller
    rw [caller]
    refine ⟨rfl, by simp [proceeds.protections], proceeds.alive, fun alive grounded => ?_⟩
    have after := proceeds.grounded alive grounded
    refine ⟨fun h mem => ?_, after.plain⟩
    rcases List.mem_append.1 mem with mem | mem
    · rw [(guards.noted h mem).1]
      exact List.length_pos_iff.2 (proceeds.alive alive)
    · exact after.noted h mem

/-- The rest of a comparison keeps apart. -/
theorem judge_stays (inside : m.running < m.threads.size) {frames : Nat} (some' : 0 < frames)
    (running : Nat) : m.Stays (Exec.judge running frames m) := by
  simp only [Exec.judge, Exec.bind_apply, Exec.get_apply]
  split
  · split
    · rename_i more
      exact Apart.modifyCurrent inside (.modifyFrame (Or.inl (by omega)))
    · exact Exec.local_bind Exec.local_pop (fun _ => Exec.local_push _) m inside
  · exact Apart.refl m

/-- The running thread with its address moved on and without its operands. -/
def taking (n : Nat) (t : Thread) : Thread :=
  { t.modifyFrame (fun f => { f with ip := f.ip + 1 }) with
    stack := (t.modifyFrame fun f => { f with ip := f.ip + 1 }).stack.take
      ((t.modifyFrame fun f => { f with ip := f.ip + 1 }).stack.size - n) }

theorem advance_drop (m : Machine) (n : Nat) : m.advance.drop n = m.modifyCurrent (taking n) :=
  modifyThread_modifyThread m m.running _ _

theorem proceeds_taking (t : Thread) (n : Nat) : t.Proceeds (taking n t) :=
  (Thread.Proceeds.modifyFrame (f := fun f => { f with ip := f.ip + 1 })
    (Or.inr fun _ => ⟨rfl, rfl⟩)).trans (.of_frames rfl rfl rfl rfl)

/-- A call that an instruction makes with its operands gone. -/
theorem call_does (h : m.Rooted) (alive : m.current.frames ≠ []) (n : Nat) (callee : Value)
    (args : List Value) (want : Nat) :
    match m.handover? (m.finalTarget callee args) with
    | some (id, rest, vs) => ∃ m', Exec.call callee args want (m.advance.drop n) = .ok () m' ∧
        m.Delivers m' id rest vs ∧
        m.current.Suspends (m'.thread m.running) want (m.layers callee args)
    | none => m.Stays (Exec.call callee args want (m.advance.drop n)) := by
  have inside := h.running_lt
  have apart : m.Apart (m.modifyCurrent (taking n)) := .modifyCurrent inside (proceeds_taking _ n)
  have conducts := Exec.call_conducts (h.apart apart) (apart.current.alive alive) callee args want
  rw [handover?_modifyCurrent, finalTarget_congr (store_modifyCurrent (f := taking n)) rfl,
    show (m.modifyCurrent (taking n)).layers callee args = m.layers callee args from rfl] at conducts
  rw [advance_drop]
  generalize Exec.call callee args want (m.modifyCurrent (taking n)) = r at conducts ⊢
  generalize m.handover? (m.finalTarget callee args) = handed at conducts ⊢
  cases conducts with
  | stays stays => exact apart.stays inside stays
  | hands switched waiting =>
    obtain ⟨delivers, suspends⟩ :=
      switched.delivers inside h.distinct (proceeds_taking _ n)
    exact ⟨_, rfl, waiting ▸ delivers, suspends⟩

theorem Does.of_stays {α : Type} {x : Exec α} {k : Machine} (stays : m.Stays (x k)) :
    m.Does .alone ((do let _ ← x; pure none) k) := by
  rw [Exec.bind_apply]
  cases done : x k with
  | ok _ m' =>
    rw [done] at stays
    exact .proceeds stays
  | error fault m' =>
    rw [done] at stays
    exact .fails stays

/-- A step that performs an instruction other than a return. -/
theorem perform_does (h : m.Rooted) (frames : m.current.frames = f :: rest) {op : Opcode} {a b : Nat}
    (instruction : m.next? = some (op, a, b)) (other : op ≠ .ret) : m.Does m.deed (Exec.step m) := by
  have inside := h.running_lt
  have apart := advance_apart inside
  have alive : m.current.frames ≠ [] := by simp [frames]
  have asked : m.nextCall? = m.advance.request? op a b := by
    rw [nextCall?, instruction, request?_advance inside]
    rfl
  have deed : m.deed = match m.advance.request? op a b with
      | some (callee, args, want) =>
        match m.handover? (m.finalTarget callee args) with
        | some (id, rest, vs) => .hands id rest vs want (m.layers callee args)
        | none => .alone
      | none => .alone := by
    rw [Machine.deed, ← asked, instruction]
    cases op <;> first | rfl | exact absurd rfl other
  rw [(step_eq frames instruction).2 other, deed]
  cases request : m.advance.request? op a b with
  | none =>
    exact .of_stays (apart.stays inside (Exec.perform_stays (apart.inside inside) request f.closure))
  | some r =>
    obtain ⟨callee, args, want⟩ := r
    have called := call_does h alive (op.touched a b) callee args want
    have advanced := current_advance inside frames
    have performs := calls_of_request (F := { f with ip := f.ip + 1 }) (apart.inside inside)
      (by rw [advanced]) request
    simp only at performs ⊢
    split
    · rename_i id rest vs handed
      rw [handed] at called
      obtain ⟨m', ok, delivers, suspends⟩ := called
      rcases performs with direct | ⟨-, judged⟩
      · rw [Exec.bind_apply, direct, ok]
        exact .hands delivers suspends
      · -- the other thread runs, so there is nothing to judge yet
        have away : m'.running ≠ m.advance.running := by
          rw [delivers.running]
          exact delivers.switch.ne h.distinct
        rw [Exec.bind_apply, judged, Exec.bind_apply, ok]
        simp only [Exec.judge, Exec.bind_apply, Exec.get_apply, if_neg away]
        exact .hands delivers suspends
    · rename_i handed
      rw [handed] at called
      apply Does.of_stays
      rcases performs with direct | ⟨-, judged⟩
      · rw [direct]
        exact called
      · rw [judged]
        exact Stays.bind inside called fun _ m' _ inside' => judge_stays inside' (Nat.succ_pos _) _

/-- Nobody waits for more than the results themselves. -/
theorem pays_plain {f : Frame} {ip : Nat}
    (plain : f.protections = 0 ∧ f.isCondition = false) (results : List Value) :
    Frame.pays { f with ip } results = results := by
  simp [Frame.pays, plain.1, plain.2]

/-- Leaving a frame that is not the outermost one. -/
theorem proceeds_leave {t : Thread} (frames : t.frames = f :: rest) (some' : rest ≠ []) :
    t.Proceeds (f.leave rest t) where
  awaiting := rfl
  protections := rfl
  alive _ := some'
  grounded _ grounded := by
    refine ⟨fun h mem => grounded.noted h (List.mem_of_mem_drop mem), fun g last => grounded.plain g ?_⟩
    have last : rest.getLast? = some g := last
    rw [frames, List.getLast?_cons, last]
    rfl

/-- Leaving the outermost frame. -/
theorem ends_leave {t t' : Thread} (proceeds : t.Proceeds t') (alive : t.frames ≠ []) :
    t.Ends (f.leave [] t') where
  dead := rfl
  grounded grounded := by
    refine ⟨fun h mem => ?_, fun g last => by cases last⟩
    exact (proceeds.grounded alive grounded).noted h (List.mem_of_mem_drop mem)

/-- A step that returns. -/
theorem return_does (h : m.Rooted) (grounded : m.current.Grounded)
    (frames : m.current.frames = f :: rest) {a b : Nat}
    (instruction : m.next? = some (.ret, a, b)) : m.Does m.deed (Exec.step m) := by
  have inside := h.running_lt
  have alive : m.current.frames ≠ [] := by simp [frames]
  have taken : m.Apart (m.modifyCurrent (taking a)) := .modifyCurrent inside (proceeds_taking _ a)
  have inside' := taken.inside inside
  have current : (m.modifyCurrent (taking a)).current.frames = { f with ip := f.ip + 1 } :: rest := by
    rw [current_modifyCurrent inside]
    simp only [taking, Thread.modifyFrame, frames]
  rw [(step_eq frames instruction).1 rfl, Exec.bind_apply, Exec.popSpread_eq, advance_drop,
    spread_advance inside frames, Machine.deed, instruction, frames]
  rcases Exec.returnFrom_cases current (m.spread a) with
    ⟨some', returned⟩ | ⟨rfl, idle, returned⟩ | ⟨rfl, resumer, others, waiting, returned⟩
  · have left := Apart.modifyCurrent inside' (proceeds_leave current some')
    have deed : (match f :: rest, m.waiting with
        | [_], [] => Deed.completes (m.spread a)
        | [_], resumer :: rest => Deed.returns resumer rest (m.spread a)
        | _, _ => Deed.alone) = .alone := by
      cases rest with
      | nil => exact absurd rfl some'
      | cons g rest => rfl
    simp only [returned]
    rw [deed]
    exact .proceeds (taken.trans inside (left.trans inside' (.pushResults (left.inside inside') _ _)))
  · have waiting : m.waiting = [] := idle
    rw [pays_plain (grounded.plain f (by rw [frames]; rfl))] at returned
    simp only [returned, waiting]
    refine .completes waiting rfl rfl (by simp) (fun k away => ?_) ?_
    · rw [thread_modifyCurrent_ne (by simpa using away), thread_modifyCurrent_ne away]
    · rw [current_modifyCurrent inside', current_modifyCurrent inside]
      exact ends_leave (proceeds_taking _ a) alive
  · have waiting : m.waiting = resumer :: others := waiting
    have switch : m.Switch resumer others := .yield waiting
    have other : resumer ≠ m.running := switch.ne h.distinct
    have bound : resumer < m.threads.size := h.bound resumer (by simp [waiting])
    rw [pays_plain (grounded.plain f (by rw [frames]; rfl))] at returned
    simp only [returned, waiting]
    -- the thread that ends is not the one that gets the results
    generalize left : (m.modifyCurrent (taking a)).modifyCurrent
      (Frame.leave { f with ip := f.ip + 1 } []) = k
    have same (j : Nat) (away : j ≠ m.running) : k.thread j = m.thread j := by
      rw [← left, thread_modifyCurrent_ne (by simpa using away), thread_modifyCurrent_ne away]
    have ended : k.thread m.running =
        Frame.leave { f with ip := f.ip + 1 } [] (taking a m.current) := by
      rw [← left]
      exact (current_modifyCurrent inside').trans (by rw [current_modifyCurrent inside])
    have size : k.threads.size = m.threads.size := by simp [← left]
    have store : k.store = m.store := by
      rw [← left]
      rfl
    refine .returns waiting ⟨by simpa using size, rfl, rfl, switch, ?_, ?_, fun j away away' => ?_⟩ ?_
    · show (k.deliver _ _).store = _
      rw [store_deliver, store_deliver, same resumer other, store]
    · show (k.deliver _ _).thread resumer = _
      rw [thread_deliver_self (by omega), same resumer other, store]
    · show (k.deliver _ _).thread j = _
      rw [thread_deliver_ne away', same j away]
    · show m.current.Ends ((k.deliver _ _).thread m.running)
      rw [thread_deliver_ne (Ne.symm other), ended]
      exact ends_leave (proceeds_taking _ a) alive

/-- Every step of a running thread does what can be read off the machine. -/
theorem step_does (h : m.Rooted) (grounded : m.current.Grounded) (alive : m.current.frames ≠ []) :
    m.Does m.deed (Exec.step m) := by
  obtain ⟨f, rest, frames⟩ := List.exists_cons_of_ne_nil alive
  cases instruction : m.next? with
  | some r =>
    obtain ⟨op, a, b⟩ := r
    by_cases returns : op = .ret
    · subst returns
      exact return_does h grounded frames instruction
    · exact perform_does h frames instruction returns
  | none =>
    have deed : m.deed = .alone := by simp [Machine.deed, nextCall?, instruction]
    have apart : m.Apart (m.modifyCurrent (·.modifyFrame ({ · with ip := f.ip + 1 }))) :=
      .modifyCurrent h.running_lt (.modifyFrame (Or.inr fun _ => ⟨rfl, rfl⟩))
    rw [deed]
    simp only [next?, frames, List.head?_cons, Option.bind_eq_bind, Option.bind_some] at instruction
    simp only [Exec.step, Exec.bind_apply, Exec.get_apply, frames, Exec.set_apply]
    cases code : f.closure.unit.code[f.ip]? with
    | none => exact .fails apart
    | some ins =>
      cases opcode : ins.opcode? with
      | none =>
        simp only [opcode]
        exact .fails apart
      | some op => simp [code, opcode] at instruction

end Machine

end ScriptEngine
