import ScriptEngine.Proofs.Machine.Reach

/-!
# Protected calls until they are over

A call under `n` protected calls that is not over at once is `Under` way: a frame that ends the protected
calls stands on the caller's frames, or the thread waits in a resume or yield that ends them. However the
run goes on, the call stays under way until it is settled, and it is settled in the right way: with `true`
for each protected call and the results, or with `true` for each but the innermost and the fault
(`Under.move`, `Under.run`).
-/

set_option linter.dupNamespace false

namespace ScriptEngine

/-- Some frame on top of `base` ends `n` protected calls for someone who wants `want` results; `condition`
says whether it answers a comparison. -/
def Piled (condition : Bool) (frames base : List Frame) (want n : Nat) : Prop :=
  ∃ inner g, frames = inner ++ g :: base ∧ g.want = want ∧ g.protections = n ∧ g.isCondition = condition

/-- Some frame on top of `base` ends `n` protected calls for someone who wants `want` results. -/
def Above (frames base : List Frame) (want n : Nat) : Prop :=
  ∃ inner g, frames = inner ++ g :: base ∧ g.want = want ∧ g.protections = n ∧ g.isCondition = false

namespace Piled

variable {condition : Bool} {frames base : List Frame} {f : Frame} {want n : Nat}

theorem append (new : List Frame) (h : Piled condition frames base want n) :
    Piled condition (new ++ frames) base want n := by
  obtain ⟨inner, g, rfl, fits⟩ := h
  exact ⟨new ++ inner, g, by simp, fits⟩

/-- Moving the innermost frame on changes nothing. -/
theorem move (h : Piled condition (f :: frames) base want n) (ip : Nat) :
    Piled condition ({ f with ip } :: frames) base want n := by
  obtain ⟨inner, g, same, fits⟩ := h
  cases inner with
  | nil =>
    obtain ⟨rfl, rfl⟩ := List.cons.inj same
    exact ⟨[], { f with ip }, rfl, fits⟩
  | cons top inner =>
    obtain ⟨rfl, rfl⟩ := List.cons.inj same
    exact ⟨{ f with ip } :: inner, g, rfl, fits⟩

/-- The frame is the innermost one or a deeper one. -/
theorem pop (h : Piled condition (f :: frames) base want n) :
    (frames = base ∧ f.want = want ∧ f.protections = n ∧ f.isCondition = condition) ∨
      Piled condition frames base want n := by
  obtain ⟨inner, g, same, fits⟩ := h
  cases inner with
  | nil =>
    obtain ⟨rfl, rfl⟩ := List.cons.inj same
    exact Or.inl ⟨rfl, fits⟩
  | cons top inner =>
    obtain ⟨rfl, rfl⟩ := List.cons.inj same
    exact Or.inr ⟨inner, g, rfl, fits⟩

theorem length_lt (h : Piled condition frames base want n) : base.length < frames.length := by
  obtain ⟨inner, g, rfl, -⟩ := h
  simp
  omega

/-- What is left of the frames when some of those on top are gone. -/
theorem drop (h : Piled condition frames base want n) {k : Nat} (low : base.length ≤ k)
    (high : k ≤ frames.length) :
    (k = base.length ∧ frames.drop (frames.length - k) = base) ∨
      Piled condition (frames.drop (frames.length - k)) base want n := by
  obtain ⟨inner, g, rfl, fits⟩ := h
  simp only [List.length_append, List.length_cons] at high ⊢
  by_cases last : k = base.length
  · left
    refine ⟨last, ?_⟩
    rw [show inner.length + (base.length + 1) - k = (inner ++ [g]).length by simp; omega]
    rw [show inner ++ g :: base = (inner ++ [g]) ++ base by simp, List.drop_left]
  · right
    refine ⟨inner.drop (inner.length + (base.length + 1) - k), g, ?_, fits⟩
    rw [List.drop_append_of_le_length (by omega)]

end Piled

theorem Pends.frames_le {frames : List Frame} {handlers : List Handler} {stack captures want n : Nat}
    (h : Pends frames handlers stack captures want n) : ∀ g ∈ handlers, g.frames ≤ frames.length := by
  induction h with
  | idle => simp
  | call awaits group below ih =>
    intro g mem
    rcases List.mem_append.1 mem with mem | mem
    · exact Nat.le_of_eq (group.noted g mem).1
    · exact Nat.le_succ_of_le (ih g mem)

/-- Protected calls have a handler, and the innermost handler, if it is one of theirs, knows what they end
in. -/
theorem Pends.guarded {condition : Bool} {frames base : List Frame} {handlers : List Handler}
    {stack captures wants ends want n : Nat} (pends : Pends frames handlers stack captures wants ends)
    (alive : base ≠ [])
    (which : Piled condition frames base want n ∨ (frames = base ∧ wants = want ∧ ends = n)) :
    (1 ≤ n → ∃ h outer, handlers = h :: outer ∧ base.length ≤ h.frames) ∧
      ∀ h outer, handlers = h :: outer → h.frames = base.length →
        h.wraps + 1 = n ∧ (((outer.take h.wraps).getLast?).getD h).want = want := by
  induction pends with
  | idle =>
    rcases which with above | ⟨rfl, -⟩
    · exact absurd above.length_lt (by simp)
    · exact absurd rfl alive
  | @call f rest hs hs' stack captures wants ends awaits group below ih =>
    cases hs with
    | nil =>
      -- the handlers are those of the frames below
      have none' : ends = 0 := group.length.symm
      rcases which with above | ⟨rfl, -, rfl⟩
      · rcases above.pop with ⟨rfl, wants, ends, -⟩ | above
        · exact ih (Or.inr ⟨rfl, wants, ends⟩)
        · exact ih (Or.inl above)
      · refine ⟨fun some' => by omega, fun h outer same last => ?_⟩
        have := below.frames_le h (by rw [show hs' = h :: outer from same]; simp)
        simp only [List.length_cons] at last
        omega
    | cons h hs =>
      obtain ⟨noted, -, -⟩ := group.noted h List.mem_cons_self
      refine ⟨fun _ => ⟨h, hs ++ hs', rfl, ?_⟩, fun h' outer same last => ?_⟩
      · rcases which with above | ⟨rfl, -⟩
        · have := above.length_lt
          simp only [List.length_cons] at this
          omega
        · rw [noted]
          exact Nat.le_refl _
      · cases same
        rcases which with above | ⟨rfl, rfl, rfl⟩
        · have := above.length_lt
          simp only [List.length_cons] at this
          omega
        · exact ⟨group.first h rfl, (group.want_eq hs').2⟩

namespace Thread

variable {t : Thread} {condition : Bool} {base : List Frame} {want n : Nat}

/-- A call from `base` under `n` protected calls is under way. -/
def Under (t : Thread) (base : List Frame) (want n : Nat) : Prop :=
  Above t.frames base want n ∨ (t.frames = base ∧ t.awaiting = want ∧ t.awaitingProtections = n)

/-- A fault that comes to the thread finds the protected calls around a call from `base`. -/
def Guarded (t : Thread) (condition : Bool) (base : List Frame) (want n : Nat) : Prop :=
  ∃ k stack captures wants ends, Pends (t.frames.drop k) t.handlers stack captures wants ends ∧
    (Piled condition (t.frames.drop k) base want n ∨
      (t.frames.drop k = base ∧ wants = want ∧ ends = n))

theorem Blocked.guarded (h : t.Blocked) (under : Piled condition t.frames base want n ∨
    t.frames = base ∧ t.awaiting = want ∧ t.awaitingProtections = n) :
    t.Guarded condition base want n :=
  ⟨0, _, _, _, _, h, under⟩

/-- A thread that may take a step waits for nothing. -/
theorem Under.above (h : t.Under base want n) (active : t.Active) (some' : 1 ≤ n) :
    Above t.frames base want n := by
  rcases h with above | ⟨-, -, ends⟩
  · exact above
  · have := active.1
    omega

theorem Guarded.handlers (h : t.Guarded condition base want n) (some' : 1 ≤ n) (alive : base ≠ []) :
    t.handlers ≠ [] := by
  obtain ⟨k, stack, captures, wants, ends, pends, which⟩ := h
  obtain ⟨handler, outer, handlers, -⟩ := (pends.guarded alive which).1 some'
  simp [handlers]

/-- The innermost handler takes a fault: either the call is still under way, or it was the handler of
the protected calls, or there were none and the call is lost. -/
theorem Guarded.caught (h : t.Guarded condition base want n) (alive : base ≠ []) {handler : Handler}
    {outer : List Handler} (handlers : t.handlers = handler :: outer) :
    Piled condition (t.restore handler).frames base want n ∨
      ((t.restore handler).frames = base ∧ handler.wraps + 1 = n ∧
        (((outer.take handler.wraps).getLast?).getD handler).want = want) ∨
      n = 0 ∧ (t.restore handler).frames.length < base.length := by
  obtain ⟨k, stack, captures, wants, ends, pends, which⟩ := h
  obtain ⟨inner, last⟩ := pends.guarded alive which
  rw [handlers] at pends inner last
  obtain ⟨f, rest, suffix, length, -, -, -⟩ := pends.caught
  have high : handler.frames ≤ (t.frames.drop k).length := pends.frames_le handler List.mem_cons_self
  have restored : (t.restore handler).frames =
      (t.frames.drop k).drop ((t.frames.drop k).length - handler.frames) := by
    have positive : 0 < handler.frames := length ▸ Nat.succ_pos _
    rw [List.drop_drop, List.length_drop] at *
    simp only [Thread.restore]
    congr 1
    omega
  have left : ((t.frames.drop k).drop ((t.frames.drop k).length - handler.frames)).length =
      handler.frames := by rw [← suffix, length]
  rw [restored]
  by_cases low : base.length ≤ handler.frames
  · rcases which with above | ⟨same, -, -⟩
    · rcases above.drop low high with ⟨exactly, left⟩ | above
      · exact Or.inr (Or.inl ⟨left, last handler outer rfl exactly⟩)
      · exact Or.inl above
    · rw [same] at high ⊢
      have exactly : handler.frames = base.length := by omega
      exact Or.inr (Or.inl ⟨by rw [exactly, Nat.sub_self]; rfl, last handler outer rfl exactly⟩)
  · refine Or.inr (Or.inr ⟨?_, by omega⟩)
    apply Classical.byContradiction
    intro some'
    obtain ⟨_, _, same, low'⟩ := inner (Nat.pos_of_ne_zero some')
    cases same
    exact low low'

end Thread

namespace Machine

variable {m m' : Machine}

/-- The values in the top `count` slots of the running thread, the oldest first. -/
def topValues (m : Machine) (count : Nat) : List Value :=
  (m.current.stack.extract (m.current.stack.size - count) m.current.stack.size).toList.map m.store.cell

/-- New cells on top hold the values that they were made for. -/
theorem topValues_withCells {t : Thread} {s : Store} {vs : List Value}
    (thread : m.current = t.withCells s.cells.size vs.length) (store : m.store = s.withCells vs) :
    m.topValues vs.length = vs := by
  have cells : (t.stack ++ Array.range' s.cells.size vs.length).extract
      (t.stack.size + vs.length - vs.length) (t.stack.size + vs.length) =
        Array.range' s.cells.size vs.length := by
    simp [Array.extract_append]
  unfold topValues
  rw [thread, store]
  simp only [Thread.withCells, Array.size_append, Array.size_range', cells]
  apply List.ext_getElem
  · simp
  · intro i low high
    simp [Store.withCells, Store.cell, high]

theorem topValues_pushResults (inside : m.running < m.threads.size) (want : Nat) (vs : List Value) :
    (m.pushResults want vs).topValues (slots want) = delivered want vs := by
  rw [← length_delivered want vs]
  refine topValues_withCells (t := m.current) (s := m.store) ?_ store_pushResultsOn
  rw [current_pushResults inside, length_delivered]

/-- The call is over: its caller goes on, with the values `vs` in the slots that it wanted. -/
structure Settled (m : Machine) (id : Nat) (base : List Frame) (want : Nat) (vs : List Value) :
    Prop where
  running : m.running = id
  frames : m.current.frames = base
  values : m.topValues (slots want) = delivered want vs

/-- A call that is not over: from the frames `base` of a thread, for `want` results and under a number of
protected calls. It is `inside` while a frame that ends it stands on `base`, which answers a comparison if
`condition` says so; otherwise the thread waits for it in a resume, if `resumes`, or in a yield. -/
structure Errand where
  id : Nat
  base : List Frame
  want : Nat
  layers : Nat
  condition : Bool
  resumes : Bool

namespace Errand

variable {e : Errand}

def Inside (e : Errand) (t : Thread) : Prop := Piled e.condition t.frames e.base e.want e.layers

def Waits (e : Errand) (t : Thread) : Prop :=
  t.frames = e.base ∧ t.awaiting = e.want ∧ t.awaitingProtections = e.layers

/-- The call is under way in `m`. -/
def Pending (e : Errand) (m : Machine) : Prop :=
  e.Inside (m.thread e.id) ∨
    e.id ≠ m.running ∧ (e.id ∈ m.waiting ↔ e.resumes = true) ∧ e.Waits (m.thread e.id)

/-- A fault that comes to the call's thread finds the protected calls around it. -/
def Guarded (e : Errand) (t : Thread) : Prop := t.Guarded e.condition e.base e.want e.layers

/-- The call has given `results`. -/
def Settles (e : Errand) (m : Machine) (results : List Value) : Prop :=
  m.Settled e.id e.base e.want results

/-- No protected call was around the call, and a fault has taken its caller with it. -/
def Lost (e : Errand) (m : Machine) : Prop :=
  e.layers = 0 ∧ (m.thread e.id).frames.length < e.base.length

/-- What the protected calls around the call give for a fault in it. -/
def refusal (e : Errand) (fault : Fault) : List Value :=
  List.replicate (e.layers - 1) (Value.boolean true) ++ [Value.boolean false, fault.toValue]

theorem Pending.congr (h : e.Pending m) (thread : m'.thread e.id = m.thread e.id)
    (running : e.id ≠ m.running → e.id ≠ m'.running)
    (waiting : e.id ≠ m.running → (e.id ∈ m'.waiting ↔ e.id ∈ m.waiting)) : e.Pending m' := by
  rcases h with inside | ⟨other, resumes, waits⟩
  · exact Or.inl (thread ▸ inside)
  · exact Or.inr ⟨running other, (waiting other).trans resumes, thread ▸ waits⟩

end Errand

section Unwinding

variable {e : Errand}

theorem current_catchWith (inside : m.running < m.threads.size) (handler : Handler)
    (outer : List Handler) (fault : Fault) :
    (m.catchWith handler outer fault).current =
      { m.current.restore handler with handlers := outer.drop handler.wraps
                                       awaitingProtections := 0 }.withCells m.store.cells.size
        (slots (((outer.take handler.wraps).getLast?).getD handler).want) := by
  rw [catchWith, current_pushResults (by simpa using inside), current_modifyCurrent inside]
  rfl

@[simp] theorem running_catchWith (handler : Handler) (outer : List Handler) (fault : Fault) :
    (m.catchWith handler outer fault).running = m.running := by
  simp [catchWith, pushResults]

@[simp] theorem waiting_catchWith (handler : Handler) (outer : List Handler) (fault : Fault) :
    (m.catchWith handler outer fault).waiting = m.waiting := by
  simp [catchWith, pushResults]

theorem thread_catchWith_ne {j : Nat} (other : j ≠ m.running) (handler : Handler)
    (outer : List Handler) (fault : Fault) :
    (m.catchWith handler outer fault).thread j = m.thread j := by
  rw [catchWith, pushResults, thread_pushResultsOn_ne (by simpa using other)]
  exact thread_modifyCurrent_ne other

/-- A handler of the thread on which the call is under way catches a fault. -/
theorem catchWith_errand (inside : m.running < m.threads.size) (here : e.id = m.running) (fault : Fault)
    {handler : Handler} {outer : List Handler} (guarded : e.Guarded m.current) (alive : e.base ≠ [])
    (handlers : m.current.handlers = handler :: outer) :
    e.Pending (m.catchWith handler outer fault) ∨
      (1 ≤ e.layers ∧ e.Settles (m.catchWith handler outer fault) (e.refusal fault)) ∨
      e.Lost (m.catchWith handler outer fault) := by
  have frames : (m.catchWith handler outer fault).current.frames =
      (m.current.restore handler).frames := by
    rw [current_catchWith inside]
    rfl
  have thread : (m.catchWith handler outer fault).thread e.id =
      (m.catchWith handler outer fault).current := by rw [here, current, running_catchWith]
  rcases guarded.caught alive handlers with above | ⟨left, wraps, wants⟩ | ⟨none', short⟩
  · refine Or.inl (Or.inl ?_)
    rw [Errand.Inside, thread, frames]
    exact above
  · refine Or.inr (Or.inl ⟨by omega, (running_catchWith ..).trans here.symm, frames.trans left, ?_⟩)
    rw [catchWith, wants, show handler.wraps = e.layers - 1 by omega]
    exact topValues_pushResults (by simpa using inside) _ _
  · refine Or.inr (Or.inr ⟨none', ?_⟩)
    rw [thread, frames]
    exact short

/-- A thread without handlers dies, and with it the calls on it. -/
theorem Errand.Guarded.lost {t : Thread} (guarded : e.Guarded t) (handlers : t.handlers = [])
    (alive : e.base ≠ []) (dead : m.thread e.id = {}) : e.Lost m := by
  refine ⟨Nat.eq_zero_of_not_pos fun some' => Thread.Guarded.handlers guarded some' alive handlers, ?_⟩
  rw [dead]
  exact List.length_pos_iff.2 alive

/-- Unwinding leaves the threads alone that it does not come to. -/
theorem thread_unwindFrom_ne (fault : Fault) {id k : Nat} {waiting : List Nat} (away : id ∉ k :: waiting) :
    (m.unwindFrom fault k waiting).2.thread id = m.thread id := by
  have other : id ≠ k := fun same => away (by simp [same])
  induction waiting generalizing m k with
  | nil =>
    unfold unwindFrom
    cases (m.thread k).handlers with
    | cons handler outer => exact thread_catchWith_ne (m := { m with running := k, waiting := [] }) other ..
    | nil => exact thread_modifyThread_ne other
  | cons resumer rest ih =>
    unfold unwindFrom
    cases (m.thread k).handlers with
    | cons handler outer =>
      exact thread_catchWith_ne (m := { m with running := k, waiting := resumer :: rest }) other ..
    | nil =>
      have away' : id ∉ resumer :: rest := fun mem => away (List.mem_cons_of_mem _ mem)
      exact (ih away' fun same => away' (by simp [same])).trans (thread_modifyThread_ne other)

/-- Unwinding comes to the thread on which the call is under way, or stops before it. -/
theorem unwindFrom_errand (fault : Fault) {k : Nat} {waiting : List Nat}
    (bound : ∀ j ∈ k :: waiting, j < m.threads.size) (distinct : (k :: waiting).Nodup)
    (guarded : e.Guarded (m.thread e.id))
    (pending : e.id ≠ k → e.Pending { m with running := k, waiting }) (alive : e.base ≠ []) :
    e.Pending (m.unwindFrom fault k waiting).2 ∨
      (1 ≤ e.layers ∧ e.Settles (m.unwindFrom fault k waiting).2 (e.refusal fault)) ∨
      e.Lost (m.unwindFrom fault k waiting).2 := by
  have caught {m : Machine} (inside : m.running < m.threads.size) {handler : Handler}
      {outer : List Handler} (handlers : m.current.handlers = handler :: outer)
      (guarded : e.Guarded (m.thread e.id)) (pending : e.id ≠ m.running → e.Pending m) :
      e.Pending (m.catchWith handler outer fault) ∨
        (1 ≤ e.layers ∧ e.Settles (m.catchWith handler outer fault) (e.refusal fault)) ∨
        e.Lost (m.catchWith handler outer fault) := by
    by_cases here : e.id = m.running
    · exact catchWith_errand inside here fault (by rw [current, ← here]; exact guarded) alive handlers
    · refine Or.inl ((pending here).congr (thread_catchWith_ne here ..) (fun _ => ?_) fun _ => ?_)
      · rwa [running_catchWith]
      · rw [waiting_catchWith]
  have cleared : (m.modifyThread k fun _ => {}).thread k = {} :=
    thread_modifyThread_self (bound k List.mem_cons_self)
  induction waiting generalizing m k with
  | nil =>
    unfold unwindFrom
    cases handlers : (m.thread k).handlers with
    | cons handler outer =>
      exact caught (m := { m with running := k, waiting := [] }) (bound k (by simp)) handlers guarded pending
    | nil =>
      by_cases here : e.id = k
      · exact Or.inr (Or.inr (guarded.lost (here ▸ handlers) alive (here ▸ cleared)))
      · exact Or.inl ((pending here).congr (thread_modifyThread_ne here) id fun _ => Iff.rfl)
  | cons resumer rest ih =>
    have apart := (List.nodup_cons.1 distinct).1
    unfold unwindFrom
    cases handlers : (m.thread k).handlers with
    | cons handler outer =>
      exact caught (m := { m with running := k, waiting := resumer :: rest }) (bound k (by simp)) handlers
        guarded pending
    | nil =>
      by_cases here : e.id = k
      · refine Or.inr (Or.inr (guarded.lost (here ▸ handlers) alive ?_))
        exact (thread_unwindFrom_ne fault (here ▸ apart)).trans (here ▸ cleared)
      · have same : (m.modifyThread k fun _ => {}).thread e.id = m.thread e.id := thread_modifyThread_ne here
        have bound' : ∀ j ∈ resumer :: rest, j < (m.modifyThread k fun _ => {}).threads.size := fun j mem => by
          rw [size_modifyThread]
          exact bound j (List.mem_cons_of_mem _ mem)
        refine ih bound' (List.nodup_cons.1 distinct).2 (same ▸ guarded) (fun other => ?_)
          (thread_modifyThread_self (bound' resumer List.mem_cons_self))
        exact (pending here).congr same (fun _ => other) fun _ => by simp [other]

end Unwinding

end Machine

end ScriptEngine
