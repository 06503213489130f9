import ScriptEngine.Proofs.Machine.Retention

/-!
# Slots that nobody else knows

A cell is `Shared` once a frame has closed over it or a closure has it for an upvalue; until then it is known
only by its slot, and no two slots have the same cell (`Machine.Separate`). What a machine does to its cells is
summed up in `Draws`: new slots get new cells, and a cell that is not shared keeps its value and stays so but
for what the instruction at hand does itself (`Deeds`). Every action of the machine keeps to this
(`Exec.call_draws`), whatever is called, as long as the functions of the host are `Discreet`: they get at cells
only through closures, and make closures of compiled chunks only.
-/

set_option linter.dupNamespace false

namespace ScriptEngine

/-- The store `s` has become `s'` through someone who gets at cells only through closures. -/
structure Store.Minds (s s' : Store) : Prop where
  cells : s.cells.size ≤ s'.cells.size
  closures : ∀ c ∈ s'.closures, c ∈ s.closures ∨ c.IsChunk
  values : ∀ x, x < s.cells.size → (∀ c ∈ s.closures, x ∉ c.upvalues) → s'.cell x = s.cell x

/-- The function gets at cells only through closures. -/
def HostFunction.Discreet (f : HostFunction) : Prop := ∀ args s, Store.Minds s ((f.run args).run.run s).2

namespace Store.Minds

variable {s s' : Store}

theorem refl (s : Store) : s.Minds s := ⟨Nat.le_refl _, fun _ => Or.inl, fun _ _ _ => rfl⟩

/-- A store with the same cells and closures. -/
theorem of_same (cells : s'.cells = s.cells) (closures : s'.closures = s.closures) : s.Minds s' := by
  refine ⟨Nat.le_of_eq (by rw [cells]), fun c mem => Or.inl (closures ▸ mem), fun x _ _ => ?_⟩
  rw [Store.cell, cells]
  rfl

end Store.Minds

namespace Machine

/-- What an instruction does to cells beyond pushing new ones: into which it writes, over which it closes, and
the closures that it makes. -/
structure Deeds where
  writes : Nat → Prop
  binds : Nat → Prop
  makes : Closure → Prop

variable {m m' m'' : Machine} {d : Deeds} {x : Nat}

/-- The store or a frame has the closure. -/
def Has (m : Machine) (c : Closure) : Prop :=
  c ∈ m.store.closures ∨ ∃ id, ∃ f ∈ (m.thread id).frames, f.closure = c

/-- The cell is known beyond its slot: a frame has closed over it, or a closure has it for an upvalue. -/
def Shared (m : Machine) (x : Nat) : Prop :=
  (∃ id, x ∈ (m.thread id).captures) ∨ ∃ c, m.Has c ∧ x ∈ c.upvalues

/-- Slot `i` of thread `id` has the cell. -/
def Slot (m : Machine) (id i x : Nat) : Prop := (m.thread id).stack[i]? = some x

/-- No two slots have the same cell, all cells are in the store, and the host is discreet. -/
structure Separate (m : Machine) : Prop where
  hosts : ∀ f ∈ m.hosts, f.Discreet
  slots : ∀ id i x, m.Slot id i x → x < m.store.cells.size
  single : ∀ id i id' i' x, m.Slot id i x → m.Slot id' i' x → id = id' ∧ i = i'
  shared : ∀ x, m.Shared x → x < m.store.cells.size

/-- From `m` the machine `m'` has come about: new slots have new cells, no cell has come to be shared and no
closure to be there, and no cell that is not shared has got another value, but for the deeds. -/
structure Draws (d : Deeds) (m m' : Machine) : Prop where
  separate : m'.Separate
  cells : m.store.cells.size ≤ m'.store.cells.size
  slots : ∀ id i x, m'.Slot id i x → m.Slot id i x ∨ m.store.cells.size ≤ x
  shared : ∀ x, m'.Shared x → m.Shared x ∨ d.binds x
  closures : ∀ c, m'.Has c → m.Has c ∨ c.IsChunk ∨ d.makes c
  values : ∀ x, x < m.store.cells.size → ¬m.Shared x → ¬d.binds x → ¬d.writes x →
    m'.store.cell x = m.store.cell x

theorem Draws.trans (first : Draws d m m') (second : Draws d m' m'') : Draws d m m'' where
  separate := second.separate
  cells := Nat.le_trans first.cells second.cells
  slots id i x slot := by
    rcases second.slots id i x slot with slot | new
    · exact first.slots id i x slot
    · exact Or.inr (Nat.le_trans first.cells new)
  shared x known := by
    rcases second.shared x known with known | bound
    · exact first.shared x known
    · exact Or.inr bound
  closures c has := by
    rcases second.closures c has with has | made
    · exact first.closures c has
    · exact Or.inr made
  values x old hidden free untouched := by
    have hidden' : ¬m'.Shared x := fun known => (first.shared x known).elim hidden free
    rw [second.values x (Nat.lt_of_lt_of_le old first.cells) hidden' free untouched,
      first.values x old hidden free untouched]

/-- A frame of a closure that is there, or of a chunk, has no upvalues that are not shared. -/
theorem shared_of_has {c : Closure} (has : m.Has c ∨ c.IsChunk) (mem : x ∈ c.upvalues) : m.Shared x := by
  rcases has with has | ⟨none', -⟩
  · exact Or.inr ⟨c, has, mem⟩
  · rw [none'] at mem
    exact absurd mem (Array.not_mem_empty x)

namespace Separate

variable (separate : m.Separate)
include separate

theorem refl (d : Deeds) : Draws d m m :=
  ⟨separate, Nat.le_refl _, fun _ _ _ slot => Or.inl slot, fun _ known => Or.inl known, fun _ has => Or.inl has,
    fun _ _ _ _ _ => rfl⟩

theorem withThreads {threads : Array Thread}
    (slots : ∀ id i x, ({ m with threads } : Machine).Slot id i x → m.Slot id i x)
    (captures : ∀ id, ∀ x ∈ (({ m with threads } : Machine).thread id).captures,
      m.Shared x ∨ d.binds x ∧ x < m.store.cells.size)
    (frames : ∀ id, ∀ f ∈ (({ m with threads } : Machine).thread id).frames,
      m.Has f.closure ∨ f.closure.IsChunk) : Draws d m { m with threads } := by
  have closures (c : Closure) (has : Has { m with threads } c) : m.Has c ∨ c.IsChunk := by
    rcases has with mem | ⟨id, f, mem, rfl⟩
    · exact Or.inl (Or.inl mem)
    · exact frames id f mem
  have shared (x : Nat) (known : Shared { m with threads } x) : m.Shared x ∨ d.binds x ∧ x < m.store.cells.size := by
    rcases known with ⟨id, mem⟩ | ⟨c, has, mem⟩
    · exact captures id x mem
    · exact Or.inl (shared_of_has (closures c has) mem)
  refine ⟨⟨separate.hosts, fun id i x slot => separate.slots id i x (slots id i x slot),
    fun id i id' i' x slot slot' => separate.single id i id' i' x (slots _ _ _ slot) (slots _ _ _ slot'),
    fun x known => ?_⟩, Nat.le_refl _, fun id i x slot => Or.inl (slots id i x slot),
    fun x known => (shared x known).imp_right And.left, fun c has => (closures c has).imp_right Or.inl,
    fun _ _ _ _ _ => rfl⟩
  exact (shared x known).elim (separate.shared x) And.right

theorem modifyThread (id : Nat) {f : Thread → Thread}
    (slots : ∀ i x : Nat, (f (m.thread id)).stack[i]? = some x → (m.thread id).stack[i]? = some x)
    (captures : ∀ x ∈ (f (m.thread id)).captures, m.Shared x ∨ d.binds x ∧ x < m.store.cells.size)
    (frames : ∀ g ∈ (f (m.thread id)).frames, m.Has g.closure ∨ g.closure.IsChunk) :
    Draws d m (m.modifyThread id f) := by
  have which (k : Nat) : (m.modifyThread id f).thread k = m.thread k ∨
      k = id ∧ (m.modifyThread id f).thread k = f (m.thread id) := by
    by_cases same : k = id
    · subst same
      by_cases inside : k < m.threads.size
      · exact Or.inr ⟨rfl, thread_modifyThread_self inside⟩
      · left
        simp [thread, Nat.le_of_not_lt inside]
    · exact Or.inl (thread_modifyThread_ne same)
  refine separate.withThreads (fun k i x slot => ?_) (fun k x mem => ?_) fun k g mem => ?_
  · change ((m.modifyThread id f).thread k).stack[i]? = some x at slot
    rcases which k with same | ⟨rfl, same⟩ <;> rw [same] at slot
    · exact slot
    · exact slots i x slot
  · change x ∈ ((m.modifyThread id f).thread k).captures at mem
    rcases which k with same | ⟨rfl, same⟩ <;> rw [same] at mem
    · exact Or.inl (Or.inl ⟨k, mem⟩)
    · exact captures x mem
  · change g ∈ ((m.modifyThread id f).thread k).frames at mem
    rcases which k with same | ⟨rfl, same⟩ <;> rw [same] at mem
    · exact Or.inl (Or.inr ⟨k, g, mem, rfl⟩)
    · exact frames g mem

/-- A thread with nothing new in its closure list and no frames but with closures that it had. -/
theorem modifyThread_same (id : Nat) {f : Thread → Thread}
    (slots : ∀ i x : Nat, (f (m.thread id)).stack[i]? = some x → (m.thread id).stack[i]? = some x)
    (captures : ∀ x ∈ (f (m.thread id)).captures, x ∈ (m.thread id).captures)
    (frames : ∀ g ∈ (f (m.thread id)).frames, ∃ g' ∈ (m.thread id).frames, g'.closure = g.closure) :
    Draws d m (m.modifyThread id f) := by
  refine separate.modifyThread id slots (fun x mem => Or.inl (Or.inl ⟨id, captures x mem⟩)) fun g mem => ?_
  obtain ⟨g', mem', same⟩ := frames g mem
  exact Or.inl (Or.inr ⟨id, g', mem', same⟩)

/-- A thread with the same closure list and frames. -/
theorem modifyThread_above (id : Nat) {f : Thread → Thread}
    (slots : ∀ i x : Nat, (f (m.thread id)).stack[i]? = some x → (m.thread id).stack[i]? = some x)
    (captures : (f (m.thread id)).captures = (m.thread id).captures)
    (frames : (f (m.thread id)).frames = (m.thread id).frames) : Draws d m (m.modifyThread id f) :=
  separate.modifyThread_same id slots (fun _ mem => captures ▸ mem) fun g mem => ⟨g, frames ▸ mem, rfl⟩

theorem withControl (running : Nat) (waiting : List Nat) : Draws d m { m with running, waiting } :=
  ⟨⟨separate.hosts, separate.slots, separate.single, separate.shared⟩, Nat.le_refl _,
    fun _ _ _ slot => Or.inl slot, fun _ known => Or.inl known, fun _ has => Or.inl has, fun _ _ _ _ _ => rfl⟩

theorem withGlobals (name : String) (v : Value) : Draws d m (m.setGlobal name v) :=
  ⟨⟨separate.hosts, separate.slots, separate.single, separate.shared⟩, Nat.le_refl _,
    fun _ _ _ slot => Or.inl slot, fun _ known => Or.inl known, fun _ has => Or.inl has, fun _ _ _ _ _ => rfl⟩

theorem withStore {s : Store} (cells : m.store.cells.size ≤ s.cells.size)
    (closures : ∀ c ∈ s.closures, m.Has c ∨ c.IsChunk ∨ d.makes c ∧ ∀ x ∈ c.upvalues, m.Shared x)
    (values : ∀ x, x < m.store.cells.size → ¬m.Shared x → s.cell x = m.store.cell x) :
    Draws d m { m with store := s } := by
  have which (c : Closure) (has : Has { m with store := s } c) :
      m.Has c ∨ c.IsChunk ∨ d.makes c ∧ ∀ x ∈ c.upvalues, m.Shared x := by
    rcases has with mem | ⟨id, f, mem, rfl⟩
    · exact closures c mem
    · exact Or.inl (Or.inr ⟨id, f, mem, rfl⟩)
  have shared (x : Nat) (known : Shared { m with store := s } x) : m.Shared x := by
    rcases known with ⟨id, mem⟩ | ⟨c, has, mem⟩
    · exact Or.inl ⟨id, mem⟩
    · rcases which c has with has | chunk | ⟨-, old⟩
      · exact shared_of_has (Or.inl has) mem
      · exact shared_of_has (Or.inr chunk) mem
      · exact old x mem
  refine ⟨⟨separate.hosts, fun id i x slot => ?_, separate.single, fun x known => ?_⟩, cells,
    fun _ _ _ slot => Or.inl slot, fun x known => Or.inl (shared x known),
    fun c has => (which c has).imp_right (Or.imp_right And.left), fun x old hidden _ _ => values x old hidden⟩
  · exact Nat.lt_of_lt_of_le (separate.slots id i x slot) cells
  · exact Nat.lt_of_lt_of_le (separate.shared x (shared x known)) cells

theorem minds {s : Store} (minds : m.store.Minds s) : Draws d m { m with store := s } :=
  separate.withStore minds.cells (fun c mem => (minds.closures c mem).imp Or.inl Or.inl) fun x old hidden =>
    minds.values x old fun c mem known => hidden (Or.inr ⟨c, Or.inl mem, known⟩)

theorem newClosure {c : Closure} (made : d.makes c) (shared : ∀ x ∈ c.upvalues, m.Shared x) :
    Draws d m { m with store := (m.store.newClosure c).2 } := by
  refine separate.withStore (Nat.le_refl _) (fun c' mem => ?_) fun _ _ _ => rfl
  rcases Array.mem_push.1 mem with mem | rfl
  · exact Or.inl (Or.inl mem)
  · exact Or.inr (Or.inr ⟨made, shared⟩)

/-- A cell that is written, or one that is shared, gets another value. -/
theorem setCell {cell : Nat} (which : m.Shared cell ∨ d.writes cell) (v : Value) :
    Draws d m { m with store := m.store.setCell cell v } := by
  have size : (m.store.setCell cell v).cells.size = m.store.cells.size := by simp [Store.setCell]
  refine ⟨⟨separate.hosts, fun id i x slot => ?_, separate.single, fun x known => ?_⟩, Nat.le_of_eq size.symm,
    fun _ _ _ slot => Or.inl slot, fun x known => Or.inl known, fun _ has => Or.inl has,
    fun x old hidden _ other => ?_⟩
  · exact size ▸ separate.slots id i x slot
  · exact size ▸ separate.shared x known
  · have differ : cell ≠ x := by
      rintro rfl
      exact which.elim hidden other
    simp [Store.cell, Store.setCell, differ]

/-- A new slot gets a new cell. -/
theorem pushOn (id : Nat) (v : Value) : Draws d m (m.pushOn id v) := by
  have same (k : Nat) : ((m.pushOn id v).thread k).captures = (m.thread k).captures ∧
      ((m.pushOn id v).thread k).frames = (m.thread k).frames ∧
      (((m.pushOn id v).thread k).stack = (m.thread k).stack ∨ k = id ∧
        ((m.pushOn id v).thread k).stack = (m.thread id).stack.push m.store.cells.size) := by
    show ((m.modifyThread id fun t => { t with stack := t.stack.push m.store.cells.size }).thread k).captures = _ ∧
      ((m.modifyThread id fun t => { t with stack := t.stack.push m.store.cells.size }).thread k).frames = _ ∧
      (((m.modifyThread id fun t => { t with stack := t.stack.push m.store.cells.size }).thread k).stack = _ ∨
        k = id ∧ ((m.modifyThread id fun t =>
          { t with stack := t.stack.push m.store.cells.size }).thread k).stack = _)
    by_cases itself : k = id
    · subst itself
      by_cases inside : k < m.threads.size
      · rw [thread_modifyThread_self inside]
        exact ⟨rfl, rfl, Or.inr ⟨rfl, rfl⟩⟩
      · have outside : (m.modifyThread k fun t => { t with stack := t.stack.push m.store.cells.size }).thread k =
            m.thread k := by simp [thread, Nat.le_of_not_lt inside]
        rw [outside]
        exact ⟨rfl, rfl, Or.inl rfl⟩
    · rw [thread_modifyThread_ne itself]
      exact ⟨rfl, rfl, Or.inl rfl⟩
  have slots (k i x : Nat) (slot : (m.pushOn id v).Slot k i x) :
      m.Slot k i x ∨ x = m.store.cells.size ∧ k = id ∧ i = (m.thread id).stack.size := by
    obtain ⟨-, -, stack | ⟨rfl, stack⟩⟩ := same k <;> rw [Slot, stack] at slot
    · exact Or.inl slot
    · rw [Array.getElem?_push] at slot
      split at slot
      · rename_i last
        exact Or.inr ⟨(Option.some.inj slot).symm, rfl, last⟩
      · exact Or.inl slot
  have has (c : Closure) (h : (m.pushOn id v).Has c) : m.Has c := by
    rcases h with mem | ⟨k, f, mem, rfl⟩
    · exact Or.inl mem
    · exact Or.inr ⟨k, f, (same k).2.1 ▸ mem, rfl⟩
  have shared (x : Nat) (known : (m.pushOn id v).Shared x) : m.Shared x := by
    rcases known with ⟨k, mem⟩ | ⟨c, h, mem⟩
    · exact Or.inl ⟨k, (same k).1 ▸ mem⟩
    · exact Or.inr ⟨c, has c h, mem⟩
  have size : (m.pushOn id v).store.cells.size = m.store.cells.size + 1 := by simp [Machine.pushOn, Store.newCell]
  refine ⟨⟨separate.hosts, fun k i x slot => ?_, fun k i k' i' x slot slot' => ?_, fun x known => ?_⟩, by omega,
    fun k i x slot => ?_, fun x known => Or.inl (shared x known), fun c h => Or.inl (has c h),
    fun x old _ _ _ => ?_⟩
  · rcases slots k i x slot with slot | ⟨rfl, -⟩
    · have := separate.slots k i x slot
      omega
    · omega
  · rcases slots k i x slot with old | ⟨new, there, last⟩ <;>
      rcases slots k' i' x slot' with old' | ⟨new', there', last'⟩
    · exact separate.single k i k' i' x old old'
    · have := separate.slots k i x old
      omega
    · have := separate.slots k' i' x old'
      omega
    · exact ⟨there.trans there'.symm, last.trans last'.symm⟩
  · have := separate.shared x (shared x known)
    omega
  · rcases slots k i x slot with slot | ⟨rfl, -⟩
    · exact Or.inl slot
    · exact Or.inr (Nat.le_refl _)
  · simp only [Machine.pushOn, Store.newCell, Store.cell, Array.getElem?_push]
    rw [if_neg (by omega)]

theorem pushResultsOn (id want : Nat) (vs : List Value) : Draws d m (m.pushResultsOn id want vs) := by
  have several (vs : List Value) : Draws d m (vs.foldl (fun m v => m.pushOn id v) m) := by
    induction vs generalizing m with
    | nil => exact separate.refl d
    | cons v vs ih =>
      have first := separate.pushOn id v (d := d)
      exact first.trans (ih first.separate)
  unfold Machine.pushResultsOn
  split
  · exact separate.pushOn id _
  · exact several _

theorem push (v : Value) : Draws d m (m.push v) := separate.pushOn _ v

theorem deliver (id : Nat) (vs : List Value) : Draws d m (m.deliver id vs) := by
  have freed := separate.modifyThread_above (d := d) id (f := fun t =>
    { t with handlers := t.handlers.drop t.awaitingProtections, awaitingProtections := 0 })
    (fun _ _ slot => slot) rfl rfl
  exact freed.trans (freed.separate.pushResultsOn id _ _)

/-- Slots that are left are the ones that were there. -/
theorem shorten (id : Nat) {f : Thread → Thread} {n : Nat}
    (stack : (f (m.thread id)).stack = (m.thread id).stack.take n)
    (captures : ∀ x ∈ (f (m.thread id)).captures, x ∈ (m.thread id).captures)
    (frames : ∀ g ∈ (f (m.thread id)).frames, ∃ g' ∈ (m.thread id).frames, g'.closure = g.closure) :
    Draws d m (m.modifyThread id f) := by
  refine separate.modifyThread_same id (fun i x slot => ?_) captures frames
  rw [stack, Array.getElem?_extract] at slot
  split at slot
  · simpa using slot
  · cases slot

theorem drop (n : Nat) : Draws d m (m.drop n) :=
  separate.shorten _ rfl (fun _ mem => mem) fun g mem => ⟨g, mem, rfl⟩

end Separate

theorem Draws.bind {α β : Type} {x : Exec α} {f : α → Exec β} (first : Draws d m (Exec.final (x m)))
    (second : ∀ a m', x m = .ok a m' → m'.Separate → Draws d m' (Exec.final (f a m'))) :
    Draws d m (Exec.final ((x >>= f) m)) := by
  rw [Exec.bind_apply]
  cases done : x m with
  | ok a m' =>
    rw [done] at first
    exact first.trans (second a m' done first.separate)
  | error fault m' =>
    rw [done] at first
    exact first

end Machine

/-! ## Calls -/

namespace Exec

open Machine

variable {m : Machine} {d : Deeds} (separate : m.Separate)
include separate

theorem ofExcept_draws {α : Type} (e : Except Fault α) : Draws d m (final (ofExcept e m)) := by
  cases e <;> exact separate.refl d

theorem onStore_draws {α : Type} {action : HostAction α} (minds : m.store.Minds (action.run.run m.store).2) :
    Draws d m (final (onStore action m)) := by
  rw [onStore_apply]
  generalize action.run.run m.store = r at minds ⊢
  obtain ⟨_ | a, s⟩ := r <;> exact separate.minds minds

theorem pushResults_draws (want : Nat) (vs : List Value) : Draws d m (final (pushResults want vs m)) :=
  separate.pushResultsOn _ want vs

theorem enter_draws {c : Closure} (known : m.Has c ∨ c.IsChunk) (args : List Value) (want n : Nat) :
    Draws d m (final (enter c args want n m)) := by
  unfold enter
  simp only [bind_apply, get_apply]
  split
  · exact separate.refl d
  · have framed := separate.modifyThread (d := d) m.running (f := fun t =>
      { t with captures := t.captures ++ c.upvalues
               frames := { closure := c, ip := 0, base := m.current.stack.size, captureBase := m.current.captures.size,
                           want, protections := n } :: t.frames }) (fun _ _ slot => slot)
      (fun x mem => (Array.mem_append.1 mem).elim (fun old => Or.inl (Or.inl ⟨m.running, old⟩)) fun new =>
        Or.inl (shared_of_has known new))
      fun g mem => by
        rcases List.mem_cons.1 mem with rfl | mem
        · exact known
        · exact Or.inl (Or.inr ⟨m.running, g, mem, rfl⟩)
    exact framed.trans (framed.separate.push _)

/-- A closure of the store is entered. -/
theorem enter_known {id : Nat} {c : Closure} (found : m.store.closures[id]? = some c) (args : List Value)
    (want n : Nat) : Draws d m (final (enter c args want n m)) :=
  enter_draws separate (Or.inl (Or.inl (Array.mem_of_getElem? found))) args want n

theorem callHost_draws (id : Nat) (args : List Value) : Draws d m (final (callHost id args m)) := by
  simp only [callHost, bind_apply, get_apply]
  cases found : m.hosts[id]? with
  | none => exact separate.refl d
  | some f => exact onStore_draws separate (separate.hosts f (Array.mem_of_getElem? found) args m.store)

theorem threadArgument_draws (function : String) (args : List Value) :
    Draws d m (final (threadArgument function args m)) := by
  unfold threadArgument
  cases args.head? with
  | none => exact separate.refl d
  | some v => cases v <;> exact separate.refl d

theorem create_draws (args : List Value) (want : Nat) : Draws d m (final (create args want m)) := by
  simp only [create, bind_apply, get_apply]
  split
  · rename_i id _
    cases found : m.store.closures[id]? with
    | none => exact separate.refl d
    | some c =>
      have known : m.Has c := Or.inl (Array.mem_of_getElem? found)
      have which (k : Nat) : ({ m with threads := m.threads.push (.ofClosure c) } : Machine).thread k = m.thread k ∨
          ({ m with threads := m.threads.push (.ofClosure c) } : Machine).thread k = .ofClosure c := by
        simp only [thread, Array.getElem?_push]
        split
        · exact Or.inr rfl
        · exact Or.inl rfl
      have made : Draws d m { m with threads := m.threads.push (.ofClosure c) } := by
        refine separate.withThreads (fun k i x slot => ?_) (fun k x mem => Or.inl ?_) fun k g mem => Or.inl ?_
        · rcases which k with same | same <;> rw [Machine.Slot, same] at slot
          · exact slot
          · simp [Thread.ofClosure] at slot
        · rcases which k with same | same <;> rw [same] at mem
          · exact Or.inl ⟨k, mem⟩
          · exact shared_of_has (Or.inl known) mem
        · rcases which k with same | same <;> rw [same] at mem
          · exact Or.inr ⟨k, g, mem, rfl⟩
          · rw [List.mem_singleton.1 mem]
            exact known
      exact made.trans (pushResults_draws made.separate want _)
  · exact separate.refl d

/-- Another thread gets values and runs. -/
theorem switch_draws (id want : Nat) (vs : List Value) (waiting : List Nat) : Draws d m
    { (m.modifyCurrent fun t => { t with awaiting := want }).deliver id vs with running := id, waiting } := by
  have waits : Draws d m (m.modifyCurrent fun t => { t with awaiting := want }) :=
    separate.modifyThread_above _ (fun _ _ slot => slot) rfl rfl
  have given := waits.separate.deliver id vs (d := d)
  exact (waits.trans given).trans (given.separate.withControl _ _)

theorem resume_draws (args : List Value) (want : Nat) : Draws d m (final (resume args want m)) := by
  unfold resume
  refine .bind (threadArgument_draws separate _ _) fun id m' _ separate => ?_
  simp only [bind_apply, get_apply]
  split
  · exact separate.refl d
  · split
    · exact separate.refl d
    · split
      · exact pushResults_draws separate want _
      · simp only [set_apply, running_deliver, waiting_deliver, running_modifyCurrent, waiting_modifyCurrent]
        exact switch_draws separate id want _ _

theorem yield_draws (args : List Value) (want : Nat) : Draws d m (final (yield args want m)) := by
  simp only [yield, bind_apply, get_apply]
  cases m.waiting with
  | nil => exact separate.refl d
  | cons resumer rest =>
    simp only [set_apply, Machine.deliver_control]
    exact switch_draws separate resumer want _ rest

theorem dostring_draws (args : List Value) (want : Nat) : Draws d m (final (dostring args want m)) := by
  unfold dostring
  cases args.head? with
  | none => exact separate.refl d
  | some v =>
    cases v with
    | string text =>
      refine .bind (ofExcept_draws separate _) fun unit m' done separate => enter_draws separate (Or.inr ⟨rfl, ?_⟩) _ _ _
      cases compiled : Compiler.compileSource text "dostring" with
      | error fault =>
        rw [compiled] at done
        cases done
      | ok u =>
        rw [compiled] at done
        cases done
        exact ⟨text, "dostring", compiled⟩
    | _ => exact separate.refl d

omit separate in
theorem callCoreWith_draws (separate : m.Separate) {protectedCall : Exec Unit} {f : CoreFunction}
    (protects : f = .pcall → Draws d m (final (protectedCall m))) (args : List Value) (want : Nat) :
    Draws d m (final (callCoreWith protectedCall f args want m)) := by
  cases f with
  | pcall => exact protects rfl
  | create => exact create_draws separate args want
  | resume => exact resume_draws separate args want
  | yield => exact yield_draws separate args want
  | status =>
    refine .bind (threadArgument_draws separate _ _) fun id m' _ separate => ?_
    simp only [bind_apply, get_apply]
    exact pushResults_draws separate want _
  | dostring => exact dostring_draws separate args want

theorem modifyHandler_draws (id : Nat) (f : Handler → Handler) :
    Draws d m (m.modifyThread id (·.modifyHandler f)) := by
  have same (t : Thread) : (t.modifyHandler f).stack = t.stack ∧ (t.modifyHandler f).captures = t.captures ∧
      (t.modifyHandler f).frames = t.frames := by
    unfold Thread.modifyHandler
    cases t.handlers <;> exact ⟨rfl, rfl, rfl⟩
  refine separate.modifyThread_above id (fun i x slot => ?_) (same _).2.1 (same _).2.2
  rwa [(same _).1] at slot

/-- The closure of the innermost frame stays. -/
theorem modifyFrame_draws (id : Nat) {f : Frame → Frame} (closure : ∀ g, (f g).closure = g.closure) :
    Draws d m (m.modifyThread id (·.modifyFrame f)) := by
  refine separate.modifyThread_same id (fun i x slot => ?_) (fun x mem => ?_) fun g mem => ?_
  · unfold Thread.modifyFrame at slot
    cases frames : (m.thread id).frames <;> rw [frames] at slot <;> exact slot
  · unfold Thread.modifyFrame at mem
    cases frames : (m.thread id).frames <;> rw [frames] at mem <;> exact mem
  · unfold Thread.modifyFrame at mem
    cases frames : (m.thread id).frames with
    | nil =>
      rw [frames] at mem
      exact ⟨g, frames ▸ mem, rfl⟩
    | cons g' rest =>
      rw [frames] at mem
      rcases List.mem_cons.1 mem with rfl | mem
      · exact ⟨g', List.mem_cons_self, (closure g').symm⟩
      · exact ⟨g, List.mem_cons_of_mem _ mem, rfl⟩

theorem settle_draws (caller frames handlers want : Nat) :
    Draws d m (final (m.settle caller frames handlers want m)) := by
  unfold Machine.settle
  have wrapped : Draws d m (if handlers < (m.thread caller).handlers.length then
      m.modifyThread caller (·.modifyHandler fun h => { h with wraps := h.wraps + 1 }) else m) := by
    split
    · exact modifyHandler_draws separate _ _
    · exact separate.refl d
  generalize (if handlers < (m.thread caller).handlers.length then
    m.modifyThread caller (·.modifyHandler fun h => { h with wraps := h.wraps + 1 }) else m) = k at wrapped ⊢
  refine wrapped.trans ?_
  have separate := wrapped.separate
  split
  · exact separate.modifyThread_above _ (fun _ _ slot => slot) rfl rfl
  · split
    · exact modifyFrame_draws separate _ fun _ => rfl
    · have dropped := separate.drop 1 (d := d)
      have freed := dropped.separate.modifyThread_above (d := d) k.running
        (f := fun t => { t with handlers := t.handlers.drop 1 }) (fun _ _ slot => slot) rfl rfl
      simp only [bind_apply, set_apply, popSpread_eq, modify_apply]
      exact (dropped.trans freed).trans (pushResults_draws freed.separate want _)

theorem noted_draws (want : Nat) : Draws d m (m.modifyCurrent (·.pushHandler want)) :=
  separate.modifyThread_above _ (fun _ _ slot => slot) rfl rfl

theorem guarded_draws (want : Nat) {action : Exec Unit}
    (h : ∀ m' : Machine, m'.Separate → m'.store = m.store → Draws d m' (final (action m'))) :
    Draws d m (final (guarded want action m)) := by
  have noted := noted_draws separate want (d := d)
  simp only [guarded, bind_apply, modify_apply, get_apply]
  refine noted.trans ?_
  have done := h _ noted.separate rfl
  generalize action (m.modifyCurrent (·.pushHandler want)) = r at done
  cases r with
  | ok u m' => exact done.trans (settle_draws done.separate _ _ _ want)
  | error fault m' => exact done

omit separate in
theorem pcall_draws (separate : m.Separate) (args : List Value) (want : Nat) :
    Draws d m (final (pcall args want m)) := by
  induction args generalizing m want with
  | nil => exact pushResults_draws separate want _
  | cons callee rest ih =>
    by_cases nested : callee = .core .pcall
    · subst nested
      rw [pcall]
      exact guarded_draws separate want fun m' separate _ => ih separate 0
    · rw [pcall]
      case x_2 => exact nested
      simp only [bind_apply, get_apply]
      cases m.callTarget callee rest with
      | error fault => exact pushResults_draws separate want _
      | ok r =>
        obtain ⟨v, given⟩ := r
        cases v with
        | closure id =>
          simp only [bind_apply, get_apply]
          cases known : m.store.closures[id]? with
          | none => exact pushResults_draws separate want _
          | some c =>
            have noted := noted_draws separate want (d := d)
            simp only [bind_apply, modify_apply]
            exact noted.trans (enter_known noted.separate known given want 1)
        | host id name =>
          have done := callHost_draws separate id given (d := d)
          simp only [bind_apply, get_apply]
          cases called : callHost id given m with
          | ok results m' =>
            rw [called] at done
            exact done.trans (pushResults_draws done.separate want _)
          | error fault m' =>
            rw [called] at done
            exact done.trans (pushResults_draws done.separate want _)
        | core f =>
          exact guarded_draws separate want fun m' separate _ =>
            callCoreWith_draws separate (fun _ => separate.refl d) given 0
        | _ => exact pushResults_draws separate want _

/-- A call works on no cell that is known by its slot only. -/
theorem call_draws (callee : Value) (args : List Value) (want : Nat) :
    Draws d m (final (call callee args want m)) := by
  simp only [call, bind_apply, get_apply]
  cases m.callTarget callee args with
  | error fault => exact separate.refl d
  | ok r =>
    obtain ⟨v, given⟩ := r
    simp only [ofExcept_ok]
    cases v with
    | closure id =>
      simp only [bind_apply, get_apply]
      cases known : m.store.closures[id]? with
      | none => exact separate.refl d
      | some c => exact enter_known separate known given want 0
    | host id name =>
      exact .bind (callHost_draws separate id given) fun results m' _ separate =>
        pushResults_draws separate want results
    | core f => exact callCoreWith_draws separate (fun _ => pcall_draws separate given want) given want
    | _ => exact separate.refl d

theorem callMetamethod_draws (event : String) (lhs rhs : Value) (fault : Fault) :
    Draws d m (final (callMetamethod event lhs rhs fault m)) := by
  simp only [callMetamethod, bind_apply, get_apply]
  cases m.metamethod lhs event with
  | error fault' => exact separate.refl d
  | ok handler =>
    simp only [ofExcept_ok]
    by_cases missing : handler.isNil = true
    · simp only [if_pos missing, bind_apply]
      cases m.metamethod rhs event with
      | error fault' => exact separate.refl d
      | ok handler' =>
        simp only [ofExcept_ok]
        split
        · exact separate.refl d
        · exact call_draws separate handler' _ 1
    · simp only [if_neg missing, bind_apply, pure_apply]
      exact call_draws separate handler _ 1

end Exec

end ScriptEngine
