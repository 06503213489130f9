import ScriptEngine.Proofs.Machine.Motion
import ScriptEngine.Proofs.Machine.Variables

/-!
# Code that is crossed

An `Activation` is a frame on a thread together with the frames below it, wherever it is in its code. It `Crosses`
the code from `i` to `j` if it gets from the one address to the other without leaving the code in between, however
much runs on top of it or on other threads meanwhile. If the code is a `Region`, which keeps to a chart and to a
ground in it, then a crossing leaves the slots below the floor in place, the values of the hidden ones among them as
they were, and every slot that it adds either is a local's or has a cell of its own (`Crosses.held`).
-/

set_option linter.dupNamespace false

namespace ScriptEngine

open Compiler

/-- There is only one state of the stack and the closure list in which a frame rests. -/
theorem Frame.Rests.captures_unique {f : Frame} {stack stack' captures captures' : Nat} (h : f.Rests stack captures)
    (h' : f.Rests stack' captures') : captures = captures' := by
  obtain ⟨record, _, d, recorded, here, -, closed⟩ := h
  obtain ⟨record', _, d', recorded', here', -, closed'⟩ := h'
  cases recorded.depths.symm.trans recorded'.depths
  rw [here] at here'
  cases here'
  omega

/-- Waiting frames lie within the extent of the one that waits for them. -/
theorem Pends.extent {inner rest : List Frame} {f : Frame} {handlers : List Handler}
    {stack captures want n size closed limit : Nat} (h : Pends (inner ++ f :: rest) handlers stack captures want n)
    (rests : f.Rests size closed) (low : limit ≤ stack) (bases : ∀ g ∈ inner, limit ≤ g.base) : limit ≤ size := by
  induction inner generalizing handlers stack captures want n with
  | nil =>
    cases h with
    | call awaits =>
      have := awaits.rests.stack_unique rests
      omega
  | cons g inner ih =>
    obtain ⟨first, others⟩ := List.forall_mem_cons.1 bases
    cases h with
    | call _ _ below => exact ih below first others

/-- A frame on a thread, on top of others. -/
structure Activation where
  id : Nat
  frame : Frame
  below : List Frame

namespace Activation

/-- The frame, at an address in its code. -/
def at' (A : Activation) (ip : Nat) : Frame := { A.frame with ip }

/-- Control is with the activation, at the address. -/
structure At (A : Activation) (m : Machine) (ip : Nat) : Prop where
  running : m.running = A.id
  frames : m.current.frames = A.at' ip :: A.below

/-- The activation is at an address from `i` to `j`, perhaps with other frames on top. -/
def Within (A : Activation) (m : Machine) (i j : Nat) : Prop :=
  ∃ inner ip, i ≤ ip ∧ ip ≤ j ∧ (m.thread A.id).frames = inner ++ A.at' ip :: A.below

/-- Moves none of which slips take the activation through the code from `i` on until control is at `j`. -/
inductive Crosses (A : Activation) (i j : Nat) : Machine → Machine → Prop where
  | here {m : Machine} (there : A.At m j) : Crosses A i j m m
  | move {m m₁ m' : Machine} (within : A.Within m i j) (away : ¬A.At m j) (firm : ¬m.Slips) (moves : m.Moves m₁)
      (rest : Crosses A i j m₁ m') : Crosses A i j m m'

variable {A : Activation} {m m₁ m' : Machine} {inner inner' : List Frame} {i j k ip ip' : Nat}

theorem at_inj (same : A.at' ip = A.at' ip') : ip = ip' := congrArg Frame.ip same

/-- There is one place on a thread where an activation is. -/
theorem place_unique (same : inner ++ A.at' ip :: A.below = inner' ++ A.at' ip' :: A.below) :
    inner = inner' ∧ ip = ip' := by
  have length := congrArg List.length same
  simp only [List.length_append, List.length_cons] at length
  obtain ⟨front, back⟩ := List.append_inj same (by omega)
  exact ⟨front, at_inj (List.cons.inj back).1⟩

theorem At.thread (h : A.At m ip) : (m.thread A.id).frames = A.at' ip :: A.below := h.running ▸ h.frames

theorem At.within (h : A.At m ip) (low : i ≤ ip) (high : ip ≤ j) : A.Within m i j := ⟨[], ip, low, high, h.thread⟩

theorem At.unique (h : A.At m ip) (h' : A.At m ip') : ip = ip' :=
  at_inj (List.cons.inj (h.frames.symm.trans h'.frames)).1

theorem Within.at (h : A.Within m i j) (there : A.At m ip) : i ≤ ip ∧ ip ≤ j := by
  obtain ⟨inner, ip', low, high, frames⟩ := h
  obtain ⟨-, rfl⟩ := place_unique (frames.symm.trans there.thread : _ = [] ++ _)
  exact ⟨low, high⟩

theorem Crosses.at (h : A.Crosses i j m m') : A.At m' j := by
  induction h with
  | here there => exact there
  | move _ _ _ _ _ ih => exact ih

theorem Crosses.within (h : A.Crosses i j m m') (le : i ≤ j) : A.Within m i j := by
  cases h with
  | here there => exact there.within le (Nat.le_refl j)
  | move within => exact within

/-- The code may begin earlier. -/
theorem Crosses.mono (h : A.Crosses j k m m') (low : i ≤ j) : A.Crosses i k m m' := by
  induction h with
  | here there => exact .here there
  | move within away firm moves _ ih =>
    obtain ⟨inner, ip, low', high, frames⟩ := within
    exact .move ⟨inner, ip, low.trans low', high, frames⟩ away firm moves ih

/-- Two codes one after the other. -/
theorem Crosses.trans (first : A.Crosses i j m m₁) (second : A.Crosses j k m₁ m') (low : i ≤ j) (high : j ≤ k) :
    A.Crosses i k m m' := by
  induction first with
  | here there => exact second.mono low
  | move within away firm moves _ ih =>
    refine .move ?_ (fun there => away ?_) firm moves (ih second)
    · obtain ⟨inner, ip, low', high', frames⟩ := within
      exact ⟨inner, ip, low', high'.trans high, frames⟩
    · obtain rfl : k = j := Nat.le_antisymm (within.at there).2 high
      exact there

/-- One move. -/
theorem Crosses.one (there : A.At m ip) (firm : ¬m.Slips) (moves : m.Moves m') (there' : A.At m' (ip + 1)) :
    A.Crosses ip (ip + 1) m m' :=
  .move (there.within (Nat.le_refl ip) (Nat.le_succ ip)) (fun same => by have := there.unique same; omega) firm moves
    (.here there')

end Activation

/-! ## Regions -/

/-- The code from `i` to `j` keeps to the chart and to the ground. -/
structure Region (u : CodeUnit) (C : Chart) (g : Compiler.Ground) (i j : Nat) : Prop where
  fits : ∀ ip op a b, i ≤ ip → ip < j → u.Holds ip op a b → ∃ enclosing, Fits u enclosing C ip op a b
  floor : ∀ ip, i ≤ ip → ip < j → g.floor ≤ (C ip).scope.depth ∨ ∃ a b, u.Holds ip .jmp a b
  room : ∀ ip op a b, i ≤ ip → ip < j → u.Holds ip op a b → op ≠ .popStack →
    op.touched a b = 0 ∨ g.floor + op.touched a b ≤ (C ip).scope.depth
  hides : ∀ ip, i ≤ ip → ip < j → ∀ h ∈ g.hidden, h ∈ (C ip).hidden
  last : g.floor ≤ (C j).scope.depth

namespace Machine

variable {m m' : Machine} {x : Nat}

/-- A cell that the next instruction writes into or closes over is that of a slot of its frame. -/
theorem Ordered.disturbs (h : m.Ordered Thread.Active) (which : m.nextDeeds.writes x ∨ m.nextDeeds.binds x) :
    ∃ f rest op a b i, m.Poises f rest op a b ∧ m.Slot m.running i x ∧ f.base ≤ i ∧
      (op = .putStack ∧ i + a = m.current.stack.size ∨
        (op = .forPrep ∨ op = .closeVars) ∧ m.current.stack.size ≤ i + op.touched a b) := by
  cases frames : m.current.frames with
  | nil => simp [nextDeeds, next?, frames] at which
  | cons f rest =>
    obtain ⟨op, a, b, poises⟩ := h.poises frames
    have touched := poises.touched_le
    -- the slot some way below the top
    have below {n : Nat} (found : m.current.cell? n = some x) : n ≤ m.current.stack.size ∧
        m.Slot m.running (m.current.stack.size - n) x := by
      simp only [Thread.cell?] at found
      split at found
      · exact ⟨‹_›, found⟩
      · cases found
    rcases which with writes | binds
    · simp only [nextDeeds, poises.instruction, deeds] at writes
      rcases writes with ⟨rfl, found⟩ | ⟨rfl, n, one, three, found⟩
      · obtain ⟨inside, slot⟩ := below found
        obtain ⟨captured, d, poised⟩ := poises.poised
        have write := poised.legal.write rfl
        have depth := poised.stack
        rw [poises.thread] at depth
        simp only at depth
        exact ⟨f, rest, _, a, b, _, poises, slot, by omega, Or.inl ⟨rfl, by omega⟩⟩
      · obtain ⟨inside, slot⟩ := below found
        simp only [Opcode.touched, Opcode.operands] at touched
        refine ⟨f, rest, _, a, b, _, poises, slot, by omega, Or.inr ⟨Or.inl rfl, ?_⟩⟩
        simp only [Opcode.touched, Opcode.operands]
        omega
    · obtain ⟨a', b', next, i, slot, high⟩ := Scoped.bound binds
      rw [poises.instruction] at next
      cases next
      simp only [Opcode.touched, Opcode.operands] at touched
      exact ⟨f, rest, _, a, b, i, poises, slot, by omega, Or.inr ⟨Or.inr rfl, high⟩⟩

/-- Where a frame is, the slots of its extent are no more than it rests with. -/
theorem Ordered.extent (h : m.Ordered Thread.Active) {id : Nat} {inner rest : List Frame} {f : Frame}
    (inside : id < m.threads.size) (frames : (m.thread id).frames = inner ++ f :: rest) {size closed limit : Nat}
    (rests : f.Rests size closed) (low : limit ≤ (m.thread id).stack.size) (bases : ∀ g ∈ inner, limit ≤ g.base) :
    limit ≤ size := by
  by_cases itself : id = m.running
  · subst itself
    have upright := h.current.2
    rw [show m.current.frames = _ from frames] at upright
    cases inner with
    | nil =>
      have same : m.current.stack.size = size := upright.rests.stack_unique rests
      exact same ▸ low
    | cons g inner =>
      obtain ⟨first, others⟩ := List.forall_mem_cons.1 bases
      exact upright.below.extent rests first others
  · have pends := h.others id inside itself
    rw [Thread.Blocked, frames] at pends
    exact pends.extent rests low bases

end Machine

namespace Activation

variable {A : Activation} {C : Chart} {g : Compiler.Ground} {m₀ m m' : Machine} {inner inner' : List Frame}
  {i j ip ip' : Nat}

/-- What a move does to an activation: its own instruction works on its operands, or something happens on top of
it, which concerns no slot below a limit that the frames on top keep to. -/
inductive Turn (A : Activation) (m m' : Machine) : List Frame → Nat → List Frame → Nat → Prop where
  | itself {op : Opcode} {a b ip ip' : Nat} {inner' : List Frame} (running : m.running = A.id)
      (poises : m.Poises (A.at' ip) A.below op a b) (goes : ip' ∈ Verifier.successors op a ip)
      (bases : ∀ f ∈ inner', m.current.stack.size - op.touched a b ≤ f.base)
      (size : m.current.stack.size - op.touched a b ≤ (m'.thread A.id).stack.size)
      (stack : ∀ k, k < m.current.stack.size - op.touched a b →
        (m'.thread A.id).stack[k]? = (m.thread A.id).stack[k]?) : Turn A m m' [] ip inner' ip'
  | aside {inner inner' : List Frame} {ip : Nat} (above : m.running = A.id → inner ≠ [])
      (spares : ∀ limit, limit ≤ (m.thread A.id).stack.size → (∀ f ∈ inner, limit ≤ f.base) →
        limit ≤ (m'.thread A.id).stack.size ∧ (∀ f ∈ inner', limit ≤ f.base) ∧
          ∀ k, k < limit → (m'.thread A.id).stack[k]? = (m.thread A.id).stack[k]?)
      (slots : ∀ k x, m'.Slot A.id k x → (∀ f ∈ inner', k < f.base) →
        m.store.cells.size ≤ x ∨ ∀ f ∈ inner, k < f.base) : Turn A m m' inner ip inner' ip

/-- A move of a machine in order does one of the two. -/
theorem turn (h : m.Evolves m' A.id) (frames : (m.thread A.id).frames = inner ++ A.at' ip :: A.below)
    (frames' : (m'.thread A.id).frames = inner' ++ A.at' ip' :: A.below) : A.Turn m m' inner ip inner' ip' := by
  cases h with
  | @works f rest new op a b ip₁ running poises other goes moved bases size stack =>
    have here : m.thread A.id = m.current := by rw [← running]; rfl
    rw [here, poises.frames] at frames
    rw [frames'] at moved
    cases inner with
    | nil =>
      obtain ⟨rfl, rfl⟩ := List.cons.inj frames
      obtain ⟨rfl, rfl⟩ := place_unique (show inner' ++ A.at' ip' :: A.below = new ++ A.at' ip₁ :: A.below from moved)
      exact .itself running poises goes bases size (here ▸ stack)
    | cons g inner =>
      obtain ⟨rfl, rfl⟩ := List.cons.inj frames
      have moved : inner' ++ A.at' ip' :: A.below = (new ++ { f with ip := ip₁ } :: inner) ++ A.at' ip :: A.below := by
        rw [moved]
        simp
      obtain ⟨rfl, rfl⟩ := place_unique moved
      have base := poises.base_le.1
      refine .aside (fun _ => List.cons_ne_nil _ _) (fun limit _ low => ?_) fun k x slot low => Or.inr ?_
      · obtain ⟨first, others⟩ := List.forall_mem_cons.1 low
        refine ⟨by omega, fun g mem => ?_, fun k below => ?_⟩
        · rcases List.mem_append.1 mem with mem | mem
          · have := bases g mem
            omega
          · rcases List.mem_cons.1 mem with rfl | mem
            · exact first
            · exact others g mem
        · rw [here]
          exact stack k (by omega)
      · refine List.forall_mem_cons.2 ⟨low { f with ip := ip₁ } (by simp), fun g mem => low g (by simp [mem])⟩
  | gets away same size stack =>
    rw [frames, frames'] at same
    obtain ⟨rfl, rfl⟩ := place_unique same
    refine .aside (fun running => absurd running.symm away) (fun limit inside low => ⟨inside.trans size, low, ?_⟩)
      fun k x _ low => Or.inr low
    exact fun k below => stack k (by omega)
  | @leaves g gone kept before after mem lowest size stack fresh =>
    rw [frames] at before
    rw [frames'] at after
    rw [← after] at before
    have before : inner ++ A.at' ip :: A.below = (gone ++ inner') ++ A.at' ip' :: A.below := by
      rw [before, List.append_assoc]
    obtain ⟨rfl, rfl⟩ := place_unique before
    refine .aside (fun _ none' => ?_) (fun limit _ low => ?_) fun k x slot low => ?_
    · rw [(List.append_eq_nil_iff.1 none').1] at mem
      exact List.not_mem_nil mem
    · have := low g (List.mem_append_left _ mem)
      exact ⟨by omega, fun f mem => low f (List.mem_append_right _ mem), fun k below => stack k (by omega)⟩
    · by_cases high : g.base ≤ k
      · exact Or.inl (fresh k x high slot)
      · refine Or.inr fun f mem => ?_
        rcases List.mem_append.1 mem with mem | mem
        · have := lowest f mem
          omega
        · exact low f mem
  | dies dead =>
    rw [dead] at frames'
    exact absurd frames'.symm (by simp)

/-- The activation is at `ip` with other frames on top. Since `m₀` the slots below the floor have been in place, and
so have the values of the hidden ones; the slots above it that are no local's have cells of their own. -/
structure Held (A : Activation) (C : Chart) (g : Compiler.Ground) (m₀ m : Machine) (inner : List Frame) (ip : Nat) :
    Prop where
  frames : (m.thread A.id).frames = inner ++ A.at' ip :: A.below
  rests : (A.at' ip).Rests (A.frame.base + (C ip).scope.depth) (A.frame.captureBase + (C ip).scope.closed)
  bases : ∀ f ∈ inner, A.frame.base + g.floor ≤ f.base
  size : A.frame.base + g.floor ≤ (m.thread A.id).stack.size
  stack : ∀ k, k < A.frame.base + g.floor → (m.thread A.id).stack[k]? = (m₀.thread A.id).stack[k]?
  hidden : ∀ k ∈ g.hidden, ∀ x, m₀.Slot A.id (A.frame.base + k) x → ¬m₀.Shared x →
    ¬m.Shared x ∧ m.store.cell x = m₀.store.cell x
  own : ∀ k x, g.floor ≤ k → m.Slot A.id (A.frame.base + k) x → (∀ f ∈ inner, A.frame.base + k < f.base) →
    (∀ l ∈ (C ip).scope.locals, l.slot ≠ k) → ¬m.Shared x

/-- The thread of an activation is there. -/
theorem lt_of_frames (frames : (m.thread A.id).frames = inner ++ A.at' ip :: A.below) : A.id < m.threads.size := by
  refine Nat.lt_of_not_le fun outside => ?_
  rw [Machine.thread_of_le outside] at frames
  exact absurd frames.symm (by simp)

/-- In a region that is crossed the stack is above the floor wherever control comes to: a jump below it would not
come to the end. -/
theorem Crosses.floor (h : A.Crosses i j m m') (ordered : m.Ordered Thread.Active) (separate : m.Separate)
    (region : Region A.frame.closure.unit C g i j) (frames : (m.thread A.id).frames = inner ++ A.at' ip :: A.below) :
    g.floor ≤ (C ip).scope.depth := by
  induction h generalizing inner ip with
  | here there =>
    obtain ⟨-, rfl⟩ := place_unique (frames.symm.trans there.thread : _ = [] ++ _)
    exact region.last
  | move within away firm moves rest ih =>
    obtain ⟨inner₀, ip₀, low, high, frames₀⟩ := within
    obtain ⟨-, rfl⟩ := place_unique (frames₀.symm.trans frames)
    by_cases last : ip₀ = j
    · exact last ▸ region.last
    rcases region.floor ip₀ low (by omega) with deep | ⟨a, b, jump⟩
    · exact deep
    obtain ⟨inner', ip', -, -, frames'⟩ := rest.within (low.trans high)
    have there := ih (Machine.moves_ordered ordered firm moves) (ordered.moves_draws separate moves).separate frames'
    cases turn (ordered.moves_evolve separate firm moves (lt_of_frames frames)) frames frames' with
    | aside => exact there
    | itself running poises goes =>
      obtain ⟨rfl, rfl, rfl⟩ := jump.eq poises.holds
      obtain ⟨enclosing, fits⟩ := region.fits ip₀ _ _ _ low (by omega) jump
      have depth := (fits.passes ip' goes).depth
      simp only [Instruction.stackEffect] at depth
      omega

/-- What the move of an activation's own instruction disturbs lies above the limit, or is a slot below it that is
not hidden. -/
theorem disturbs_itself (ordered : m.Ordered Thread.Active) (separate : m.Separate) {op : Opcode} {a b k x : Nat}
    (poises : m.Poises (A.at' ip) A.below op a b) (slot : m.Slot A.id k x)
    (which : m.nextDeeds.writes x ∨ m.nextDeeds.binds x) :
    op = .putStack ∧ k + a = m.current.stack.size ∨
      (op = .forPrep ∨ op = .closeVars) ∧ m.current.stack.size ≤ k + op.touched a b := by
  obtain ⟨f, rest, op', a', b', k', poises', slot', -, where'⟩ := ordered.disturbs which
  obtain ⟨-, rfl⟩ := separate.single _ _ _ _ x slot slot'
  cases poises.instruction.symm.trans poises'.instruction
  exact where'

/-- What happens on top of an activation disturbs none of the slots below. -/
theorem quiet_aside (ordered : m.Ordered Thread.Active) (separate : m.Separate)
    (frames : (m.thread A.id).frames = inner ++ A.at' ip :: A.below) (above : m.running = A.id → inner ≠ [])
    {k x : Nat} (slot : m.Slot A.id k x) (below : ∀ f ∈ inner, k < f.base) :
    ¬(m.nextDeeds.writes x ∨ m.nextDeeds.binds x) := by
  intro which
  obtain ⟨f, rest, op, a, b, k', poises, slot', high, -⟩ := ordered.disturbs which
  obtain ⟨running, rfl⟩ := separate.single _ _ _ _ x slot slot'
  have same := poises.frames
  rw [show m.current = m.thread A.id by rw [running]; rfl, frames] at same
  cases inner with
  | nil => exact above running.symm rfl
  | cons g inner =>
    obtain ⟨rfl, -⟩ := List.cons.inj same
    have := below g List.mem_cons_self
    omega

/-- A hidden slot and its cell after a move that does not disturb it. -/
theorem Held.keeps_hidden (held : A.Held C g m₀ m inner ip) (ordered : m.Ordered Thread.Active)
    (separate : m.Separate) (moves : m.Moves m')
    (quiet : ∀ k ∈ g.hidden, ∀ x, m.Slot A.id (A.frame.base + k) x → ¬(m.nextDeeds.writes x ∨ m.nextDeeds.binds x)) :
    ∀ k ∈ g.hidden, ∀ x, m₀.Slot A.id (A.frame.base + k) x → ¬m₀.Shared x →
      ¬m'.Shared x ∧ m'.store.cell x = m₀.store.cell x := by
  intro k mem x slot alone
  have draws := ordered.moves_draws separate moves
  obtain ⟨unshared, value⟩ := held.hidden k mem x slot alone
  have below := g.below k mem
  have slot : m.Slot A.id (A.frame.base + k) x := (held.stack _ (by omega)).trans slot
  have quiet := quiet k mem x slot
  refine ⟨fun known => ?_, ?_⟩
  · exact (draws.shared x known).elim unshared fun bound => quiet (Or.inr bound)
  · rw [draws.values x (separate.slots _ _ _ slot) unshared (fun bound => quiet (Or.inr bound))
      fun written => quiet (Or.inl written), value]

/-- A move in a region keeps what a region keeps. -/
theorem Held.move (held : A.Held C g m₀ m inner ip) (ordered : m.Ordered Thread.Active) (separate : m.Separate)
    (region : Region A.frame.closure.unit C g i j) (low : i ≤ ip) (high : ip ≤ j) (away : ¬A.At m j)
    (firm : ¬m.Slips) (moves : m.Moves m') (frames' : (m'.thread A.id).frames = inner' ++ A.at' ip' :: A.below)
    (floor : g.floor ≤ (C ip).scope.depth) (floor' : g.floor ≤ (C ip').scope.depth) :
    A.Held C g m₀ m' inner' ip' := by
  have inside := lt_of_frames held.frames
  have ordered' := Machine.moves_ordered ordered firm moves
  have draws := ordered.moves_draws separate moves
  -- a cell that was not there before is known to its slot only
  have fresh {k x : Nat} (slot : m'.Slot A.id k x) (new : m.store.cells.size ≤ x) : ¬m'.Shared x := by
    intro known
    rcases draws.shared x known with known | bound
    · have := separate.shared x known
      omega
    · obtain ⟨f, rest, op, a, b, k', poises, slot', -⟩ := ordered.disturbs (Or.inr bound)
      have := separate.slots _ _ _ slot'
      omega
  have known {k x : Nat} (slot : m.Slot A.id k x) (alone : ¬m.Shared x) (free : ¬m.nextDeeds.binds x) :
      ¬m'.Shared x := fun known => (draws.shared x known).elim alone free
  cases turn (ordered.moves_evolve separate firm moves inside) held.frames frames' with
  | aside above spares slots =>
    obtain ⟨size, bases, stack⟩ := spares _ held.size held.bases
    have quiet := fun {k x} => quiet_aside ordered separate held.frames above (k := k) (x := x)
    refine ⟨frames', held.rests, bases, size, fun k low => (stack k low).trans (held.stack k low),
      held.keeps_hidden ordered separate moves fun k mem x slot => ?_, fun k x deep slot below apart => ?_⟩
    · refine quiet slot fun f mem' => ?_
      have := held.bases f mem'
      have := g.below k mem
      omega
    · rcases slots _ x slot below with new | below
      · exact fresh slot new
      rcases draws.slots _ _ x slot with old | new
      · exact known old (held.own k x deep old below apart) fun bound => quiet old below (Or.inr bound)
      · exact fresh slot new
  | @itself op a b _ _ _ running poises goes bases size stack =>
    have lower : ip < j := by
      refine Nat.lt_of_le_of_ne high fun last => away ⟨running, ?_⟩
      rw [poises.frames, last]
    have holds := poises.holds
    obtain ⟨enclosing, fits⟩ := region.fits ip op a b low lower holds
    have passes := fits.passes ip' goes
    have here : m.thread A.id = m.current := by rw [← running]; rfl
    have depth := poises.upright.rests.stack_unique held.rests
    have closed := poises.upright.rests.captures_unique held.rests
    have depth' := passes.depth
    have closed' := passes.closed
    have disturbs := fun {k x} => disturbs_itself ordered separate poises (k := k) (x := x)
    -- the instruction works above the floor
    have above : A.frame.base + g.floor ≤ m.current.stack.size - op.touched a b := by
      by_cases pops : op = .popStack
      · subst pops
        simp only [Instruction.stackEffect, Opcode.touched, Opcode.operands] at depth' ⊢
        omega
      · have := region.room ip op a b low lower holds pops
        omega
    have rests : (A.at' ip').Rests (A.frame.base + (C ip').scope.depth)
        (A.frame.captureBase + (C ip').scope.closed) :=
      poises.next ip' _ _ ((Verifier.mem_successors.1 goes).imp And.symm And.symm) (by omega) (by omega)
    refine ⟨frames', rests, fun f mem => above.trans (bases f mem), above.trans size,
      fun k low => (stack k (by omega)).trans (held.stack k low),
      held.keeps_hidden ordered separate moves fun k mem x slot which => ?_, fun k x deep slot below apart => ?_⟩
    · have low' := g.below k mem
      rcases disturbs slot which with ⟨rfl, same⟩ | ⟨-, touched⟩
      · exact fits.avoids rfl k (region.hides ip low lower k mem) (by omega)
      · omega
    · have extent := ordered'.extent (lt_of_frames frames') frames' rests
        (show A.frame.base + k + 1 ≤ _ from Machine.Slot.lt slot) fun f mem => below f mem
      rcases draws.slots _ _ x slot with old | new
      · refine known old (held.own k x deep old (by simp) fun l mem same => ?_) fun bound => ?_
        · exact apart l (passes.kept l mem (by omega)) same
        · -- the slots that are closed over become those of locals
          obtain rfl : op = .closeVars := by
            simp only [Machine.nextDeeds, poises.instruction] at bound
            exact bound.1
          have touched := ((disturbs old (Or.inr bound)).resolve_left (by simp)).2
          simp only [Opcode.touched, Opcode.operands] at touched
          have old := old.lt
          rw [here] at old
          obtain ⟨l, mem, same⟩ := (passes.binds rfl).2 k (by omega) (by omega)
          exact apart l mem same
      · exact fresh slot new

/-- An activation at the beginning of a region, with nothing above the floor but locals. -/
theorem At.held (there : A.At m ip) (ordered : m.Ordered Thread.Active)
    (depth : m.current.stack.size = A.frame.base + (C ip).scope.depth)
    (closed : m.current.captures.size = A.frame.captureBase + (C ip).scope.closed)
    (floor : g.floor ≤ (C ip).scope.depth)
    (above : ∀ k, g.floor ≤ k → k < (C ip).scope.depth → ∃ l ∈ (C ip).scope.locals, l.slot = k) :
    A.Held C g m m [] ip := by
  have here : m.thread A.id = m.current := by rw [← there.running]; rfl
  have upright := ordered.current.2
  simp only [there.frames] at upright
  have rests := upright.rests
  rw [depth, closed] at rests
  refine ⟨there.thread, rests, by simp, by rw [here, depth]; omega, fun _ _ => rfl, fun k _ x _ alone => ⟨alone, rfl⟩,
    fun k x deep slot _ apart => ?_⟩
  have inside := slot.lt
  rw [here, depth] at inside
  obtain ⟨l, mem, same⟩ := above k deep (by omega)
  exact absurd same (apart l mem)

/-- What a region that is crossed keeps. -/
theorem Crosses.held (h : A.Crosses i j m m') (region : Region A.frame.closure.unit C g i j)
    (ordered : m.Ordered Thread.Active) (separate : m.Separate) (le : i ≤ j) (held : A.Held C g m₀ m inner ip) :
    A.Held C g m₀ m' [] j ∧ m'.Ordered Thread.Active ∧ m'.Separate := by
  induction h generalizing inner ip with
  | here there =>
    obtain ⟨rfl, rfl⟩ := place_unique (held.frames.symm.trans there.thread : _ = [] ++ _)
    exact ⟨held, ordered, separate⟩
  | move within away firm moves rest ih =>
    have crosses := Crosses.move within away firm moves rest
    obtain ⟨inner₀, ip₀, low, high, frames⟩ := within
    obtain ⟨rfl, rfl⟩ := place_unique (frames.symm.trans held.frames)
    obtain ⟨inner', ip', -, -, frames'⟩ := rest.within le
    have ordered' := Machine.moves_ordered ordered firm moves
    have separate' := (ordered.moves_draws separate moves).separate
    refine ih ordered' separate' (held.move ordered separate region low high away firm moves frames' ?_ ?_)
    · exact crosses.floor ordered separate region frames
    · exact rest.floor ordered' separate' region frames'

end Activation

end ScriptEngine
