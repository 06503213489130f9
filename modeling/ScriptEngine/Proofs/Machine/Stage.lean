import ScriptEngine.Proofs.Compiler.Looping
import ScriptEngine.Proofs.Machine.Crossing

/-!
# Temporaries on the way through code

At a `Stage` of its way an activation has certain values in the slots above a depth, in cells that nobody else
knows, and below them the slots are as they were. An instruction that works on these values leads to the next stage
(`Stage.moves`), with the values that it is there for; code whose chart is known keeps the values that are there and
adds others (`Stage.cross`), whatever is called on the way.
-/

set_option linter.dupNamespace false

namespace ScriptEngine

open Compiler

namespace Compiler

variable {u : CodeUnit} {enclosing : List (String × Nat)} {g : Ground} {exits : List (Nat × Scope)} {i j : Nat}
  {σ τ : Scope} {T : Namings}

/-- Surveyed code is a region of every chart that has its notes. -/
theorem Survey.region {notes : List Site} (h : Survey u enclosing g exits i σ j τ T notes) {C : Chart}
    (noted : Noted C i notes) (last : (C j).scope.Narrows τ)
    (leaves : ∀ x ρ, (x, ρ) ∈ exits → (C x).scope.Narrows ρ) (floor : g.floor ≤ τ.depth) : Region u C g i j := by
  have size := h.size
  have note (ip : Nat) (low : i ≤ ip) (high : ip < j) : ∃ n x, notes[n]? = some x ∧ ip = i + n ∧ C ip = x := by
    obtain ⟨n, rfl⟩ := Nat.exists_eq_add_of_le low
    have inside : n < notes.length := by omega
    exact ⟨n, _, List.getElem?_eq_getElem inside, rfl, noted n _ (List.getElem?_eq_getElem inside)⟩
  refine ⟨fun ip op a b low high holds => ⟨enclosing, h.sound C noted last leaves ip op a b low high holds⟩,
    fun ip low high => ?_, fun ip op a b low high holds pops => ?_, fun ip low high => ?_, last.depth ▸ floor⟩ <;>
    obtain ⟨n, x, found, rfl, here⟩ := note ip low high <;> rw [here]
  · exact h.floor n x found
  · exact h.room n x found op a b holds pops
  · exact h.hides n x found

/-- Charted code is a region of some chart, whatever that says behind the code. -/
theorem Charts.region (h : Charts u enclosing g exits i σ j τ T) (ends : Nat → Scope) (floor : g.floor ≤ τ.depth)
    (outside : ∀ x ρ, (x, ρ) ∈ exits → j < x ∧ ends x = ρ) :
    i ≤ j ∧ ∃ C : Chart, Region u C g i j ∧ (C i).scope.Narrows σ ∧ (C j).scope = τ := by
  obtain ⟨notes, survey⟩ := h
  have size := survey.size
  let C : Chart := fun ip => if j < ip then ⟨ends ip, [], Option.none⟩ else notes.getD (ip - i) ⟨τ, [], Option.none⟩
  have noted : Noted C i notes := fun n x found => by
    have := (List.getElem?_eq_some_iff.1 found).1
    simp [C, found, show ¬j < i + n by omega]
  have last : C j = ⟨τ, [], Option.none⟩ := by simp [C, show j - i = notes.length by omega]
  have narrows : (C j).scope.Narrows τ := by
    rw [last]
    exact .refl τ
  refine ⟨by omega, C, survey.region noted narrows (fun x ρ mem => ?_) floor, survey.enters noted narrows,
    by rw [last]⟩
  obtain ⟨far, rfl⟩ := outside x ρ mem
  simp only [C, if_pos far]
  exact .refl _

/-- The ground on which `n` slots from `d` on are hidden. -/
def holding (d n : Nat) : Ground where
  floor := d + n
  hidden := (List.range n).map (d + ·)
  below := by
    intro h mem
    obtain ⟨i, inside, rfl⟩ := List.mem_map.1 mem
    have := List.mem_range.1 inside
    omega

end Compiler

namespace Machine

variable {m : Machine}

/-- The machine with values on top of the running thread's stack. -/
def pushAll (m : Machine) (vs : List Value) : Machine := vs.foldl push m

theorem pushAll_eq (m : Machine) (vs : List Value) : m.pushAll vs =
    { m.modifyCurrent (·.withCells m.store.cells.size vs.length) with store := m.store.withCells vs } := by
  have fixed (k : Machine) (same : k.running = m.running) (vs : List Value) :
      k.pushAll vs = vs.foldl (fun k v => k.pushOn m.running v) k := by
    induction vs generalizing k with
    | nil => rfl
    | cons v vs ih =>
      rw [List.foldl_cons, ← ih (k.pushOn m.running v) same, ← same]
      rfl
  rw [fixed m rfl, foldl_pushOn]
  rfl

theorem drop_zero (m : Machine) : m.drop 0 = m := modifyThread_of_eq (by simp)

end Machine

namespace Activation

/-- Control is with the activation, at `ip`. The slots from `d` on hold the values `vs` in cells that nobody else
knows, and those below are as they were in `m₀`. -/
structure Bed (A : Activation) (m₀ : Machine) (d : Nat) (m : Machine) (ip : Nat) (vs : List Value) : Prop where
  ordered : m.Ordered Thread.Active
  separate : m.Separate
  there : A.At m ip
  room : A.frame.base + d + vs.length ≤ m.current.stack.size
  below : ∀ k, k < A.frame.base + d → m.current.stack[k]? = (m₀.thread A.id).stack[k]?
  values : ∀ (k : Nat) v, vs[k]? = some v → ∃ x, m.Slot A.id (A.frame.base + d + k) x ∧ ¬m.Shared x ∧ m.store.cell x = v

/-- The same, and there are no other slots. The frame has closed over as much as `c` says. -/
structure Stage (A : Activation) (m₀ : Machine) (d c : Nat) (m : Machine) (ip : Nat) (vs : List Value) : Prop
    extends A.Bed m₀ d m ip vs where
  captures : m.current.captures.size = A.frame.captureBase + c
  size : m.current.stack.size = A.frame.base + d + vs.length

variable {A : Activation} {m₀ m m' : Machine} {d c i j ip ip' : Nat} {vs : List Value}

@[simp] theorem closure_at' (A : Activation) (ip : Nat) : (A.at' ip).closure = A.frame.closure := rfl

theorem At.current (there : A.At m ip) : m.thread A.id = m.current := by
  rw [← there.running]
  rfl

namespace Bed

theorem thread (bed : A.Bed m₀ d m ip vs) : m.thread A.id = m.current := bed.there.current

theorem inside (bed : A.Bed m₀ d m ip vs) : m.running < m.threads.size := bed.ordered.sane.running_lt

theorem poises (bed : A.Bed m₀ d m ip vs) {op : Opcode} {a b : Nat} (holds : A.frame.closure.unit.Holds ip op a b) :
    m.Poises (A.at' ip) A.below op a b := by
  obtain ⟨op', a', b', poises⟩ := bed.ordered.poises bed.there.frames
  obtain ⟨rfl, rfl, rfl⟩ := holds.eq poises.holds
  exact poises

/-- A step keeps the values in slots that it does not close over. -/
theorem step (bed : A.Bed m₀ d m ip vs) (us : List Value) (step : Exec.step m = .ok none m') (there : A.At m' ip')
    (room : A.frame.base + d + us.length ≤ m'.current.stack.size)
    (below : ∀ k, k < A.frame.base + d → m'.current.stack[k]? = m.current.stack[k]?)
    (known : ∀ k x, k < us.length → m.Slot A.id (A.frame.base + d + k) x → ¬m.Shared x)
    (free : ∀ k x, k < us.length → m'.Slot A.id (A.frame.base + d + k) x → ¬m.nextDeeds.binds x)
    (values : ∀ (k : Nat) v, us[k]? = some v →
      ∃ x, m'.current.stack[A.frame.base + d + k]? = some x ∧ m'.store.cell x = v) :
    m.Moves m' ∧ ¬m.Slips ∧ A.Bed m₀ d m' ip' us := by
  have firm : ¬m.Slips := by
    rintro ⟨fault, k, failed, -⟩
    rw [step] at failed
    cases failed
  have moves : m.Moves m' := .step step
  have draws := bed.ordered.moves_draws bed.separate moves
  refine ⟨moves, firm, Machine.moves_ordered bed.ordered firm moves, draws.separate, there, room,
    fun k low => (below k low).trans (bed.below k low), fun k v found => ?_⟩
  have inside := (List.getElem?_eq_some_iff.1 found).1
  obtain ⟨x, slot, value⟩ := values k v found
  have slot' : m'.Slot A.id (A.frame.base + d + k) x := by rw [Machine.Slot, there.current, slot]
  refine ⟨x, slot', fun shared => ?_, value⟩
  rcases draws.shared x shared with shared | bound
  · rcases draws.slots _ _ x slot' with old | new
    · exact known k x inside old shared
    · have := bed.separate.shared x shared
      omega
  · exact free k x inside slot' bound

end Bed

namespace Stage

/-- The value `n` slots below the top. -/
theorem top (stage : A.Stage m₀ d c m ip vs) {n : Nat} {v : Value} (found : vs[vs.length - n]? = some v)
    (few : n ≤ vs.length) : ∃ x, m.current.cell? n = some x ∧ ¬m.Shared x ∧ m.store.cell x = v := by
  obtain ⟨x, slot, alone, value⟩ := stage.values _ v found
  rw [Machine.Slot, stage.thread] at slot
  have size := stage.size
  refine ⟨x, ?_, alone, value⟩
  rw [Thread.cell?, if_pos (by omega)]
  rw [← slot]
  congr 1
  omega

theorem top_eq (stage : A.Stage m₀ d c m ip vs) {n : Nat} {v : Value} (found : vs[vs.length - n]? = some v)
    (few : n ≤ vs.length) : m.top n = v := by
  obtain ⟨x, cell, -, value⟩ := stage.top found few
  rw [Machine.top, cell]
  exact value

/-- Code that is charted keeps the temporaries that are there and adds others. -/
theorem cross (stage : A.Stage m₀ d c m i vs) {σ τ : Scope} {e : List (String × Nat)} {T : Namings} {k : Nat}
    (charts : Charts A.frame.closure.unit e (holding d vs.length) [] i σ j τ T) (depth : σ.depth = d + vs.length)
    (closed : σ.closed = c) (depth' : τ.depth = d + vs.length + k) (closed' : τ.closed = c)
    (apart : ∀ l ∈ τ.locals, l.slot < d) (crosses : A.Crosses i j m m') :
    ∃ ws, ws.length = k ∧ A.Stage m₀ d c m' j (vs ++ ws) := by
  have size := stage.size
  obtain ⟨le, C, region, first, last⟩ := charts.region (fun _ => τ)
    (by show d + vs.length ≤ τ.depth; omega) (by simp)
  have held := stage.there.held (C := C) (g := holding d vs.length) stage.ordered
    (by rw [first.depth, depth, size]; omega) (by rw [first.closed, closed, stage.captures])
    (by rw [first.depth, depth]; rfl) fun k deep low => by
      have : d + vs.length ≤ k := deep
      rw [first.depth, depth] at low
      omega
  obtain ⟨held, ordered, separate⟩ := crosses.held region stage.ordered stage.separate le held
  have there := crosses.at
  have here := there.current
  have upright := ordered.current.2
  simp only [there.frames] at upright
  have rests := held.rests
  rw [last, depth', closed'] at rests
  have size' := upright.rests.stack_unique rests
  have captures := upright.rests.captures_unique rests
  -- the new values are what the new slots hold
  let ws := (List.range k).map fun n =>
    m'.store.cell ((m'.current.stack[A.frame.base + d + vs.length + n]?).getD 0)
  have length : ws.length = k := by simp [ws]
  have full : m'.current.stack.size = A.frame.base + d + (vs ++ ws).length := by
    rw [List.length_append]
    omega
  refine ⟨ws, length, ⟨ordered, separate, there, full.ge, fun n low => ?_, fun n v found => ?_⟩, captures, full⟩
  · rw [← here, held.stack n (by show n < A.frame.base + (d + vs.length); omega), stage.thread]
    exact stage.below n low
  · by_cases old : n < vs.length
    · rw [List.getElem?_append_left old] at found
      obtain ⟨x, slot, alone, value⟩ := stage.values n v found
      have mem : d + n ∈ (holding d vs.length).hidden := List.mem_map.2 ⟨n, List.mem_range.2 old, rfl⟩
      obtain ⟨alone', value'⟩ := held.hidden (d + n) mem x (by rwa [← Nat.add_assoc]) alone
      refine ⟨x, ?_, alone', value'.trans value⟩
      rw [Machine.Slot, held.stack _ (by show A.frame.base + d + n < A.frame.base + (d + vs.length); omega)]
      exact slot
    · rw [List.getElem?_append_right (by omega)] at found
      have new : n - vs.length < k := length ▸ (List.getElem?_eq_some_iff.1 found).1
      have inside : A.frame.base + d + n < m'.current.stack.size := by omega
      have slot : m'.Slot A.id (A.frame.base + d + n) m'.current.stack[A.frame.base + d + n] := by
        rw [Machine.Slot, here, Array.getElem?_eq_getElem inside]
      refine ⟨_, slot, held.own (d + n) _ ?_ (by rwa [← Nat.add_assoc]) (by simp) fun l mem same => ?_, ?_⟩
      · show d + vs.length ≤ d + n
        omega
      · rw [last] at mem
        have := apart l mem
        omega
      · simp only [ws, List.getElem?_map, List.getElem?_range new, Option.map_some, Option.some.injEq] at found
        rw [← found, show A.frame.base + d + vs.length + (n - vs.length) = A.frame.base + d + n by omega,
          Array.getElem?_eq_getElem inside]
        rfl

/-! ## Instructions -/

/-- A step that closes over nothing leads to the next stage, if the slots are known there. -/
theorem step (stage : A.Stage m₀ d c m ip vs) (us : List Value) (step : Exec.step m = .ok none m')
    (free : ∀ x, ¬m.nextDeeds.binds x) (there : A.At m' ip')
    (captures : m'.current.captures.size = m.current.captures.size)
    (size : m'.current.stack.size = A.frame.base + d + us.length)
    (below : ∀ k, k < A.frame.base + d → m'.current.stack[k]? = m.current.stack[k]?)
    (values : ∀ (k : Nat) v, us[k]? = some v →
      ∃ x, m'.current.stack[A.frame.base + d + k]? = some x ∧ m'.store.cell x = v) :
    m.Moves m' ∧ ¬m.Slips ∧ A.Stage m₀ d c m' ip' us := by
  have known (k x : Nat) (inside : k < us.length) (slot : m.Slot A.id (A.frame.base + d + k) x) : ¬m.Shared x := by
    have high := slot.lt
    rw [stage.thread, stage.size] at high
    obtain ⟨y, slot', alone, -⟩ := stage.values k _ (List.getElem?_eq_getElem (by omega))
    obtain rfl : x = y := Option.some.inj (slot.symm.trans slot')
    exact alone
  obtain ⟨moves, firm, bed⟩ := stage.toBed.step us step there size.ge below known (fun _ x _ _ => free x) values
  exact ⟨moves, firm, bed, captures.trans stage.captures, size⟩

/-- An instruction that only takes values away and pushes others. -/
theorem moves (stage : A.Stage m₀ d c m ip vs) (p : Nat) (ws : List Value) (ip' start : Nat) {op : Opcode} {a b : Nat}
    (holds : A.frame.closure.unit.Holds ip op a b)
    (plain : op ≠ .ret ∧ op ≠ .putStack ∧ op ≠ .forPrep ∧ op ≠ .closeVars)
    (few : p ≤ vs.length) (done : Exec.perform A.frame.closure op a b m.advance = .ok () m')
    (running : m'.running = m.running)
    (thread : m'.current = { m.current with
      stack := m.current.stack.take (m.current.stack.size - p) ++ Array.range' start ws.length
      frames := A.at' ip' :: A.below })
    (cells : ∀ (k : Nat) w, ws[k]? = some w → m'.store.cell (start + k) = w) :
    m.Moves m' ∧ ¬m.Slips ∧ A.Stage m₀ d c m' ip' (vs.take (vs.length - p) ++ ws) := by
  have poises := stage.poises holds
  have size := stage.size
  have offset (k : Nat) (high : vs.length - p ≤ k) : m.current.stack.size - p ≤ A.frame.base + d + k ∧
      A.frame.base + d + k - (m.current.stack.size - p) = k - (vs.length - p) := by omega
  have step : Exec.step m = .ok none m' := by
    rw [poises.performs plain.1, Exec.bind_apply, closure_at', done]
    rfl
  have quiet (x : Nat) : ¬(m.nextDeeds.writes x ∨ m.nextDeeds.binds x) := by
    simp only [Machine.nextDeeds, poises.instruction, Machine.deeds, plain, false_and, or_self, not_false_eq_true]
  have draws := stage.ordered.moves_draws stage.separate (.step step)
  have stack : m'.current.stack = m.current.stack.take (m.current.stack.size - p) ++ Array.range' start ws.length := by
    rw [thread]
  have length : (m.current.stack.take (m.current.stack.size - p)).size = m.current.stack.size - p := by
    simp only [Array.size_extract]
    omega
  have kept (k : Nat) (low : k < m.current.stack.size - p) : m'.current.stack[k]? = m.current.stack[k]? := by
    rw [stack, Array.getElem?_append_left (by omega), Array.getElem?_extract, if_pos (by omega), Nat.zero_add]
  refine stage.step _ step (fun x bound => quiet x (Or.inr bound)) ⟨running.trans stage.there.running, by rw [thread]⟩
    (by rw [thread]) ?_ (fun k low => kept k (by omega)) fun k v found => ?_
  · rw [stack, Array.size_append, length, Array.size_range', List.length_append, List.length_take]
    omega
  · by_cases old : k < vs.length - p
    · rw [List.getElem?_append_left (by rw [List.length_take]; omega), List.getElem?_take_of_lt old] at found
      obtain ⟨x, slot, alone, value⟩ := stage.values k v found
      have slot' : m.current.stack[A.frame.base + d + k]? = some x := by rw [← stage.thread]; exact slot
      refine ⟨x, (kept _ (by omega)).trans slot', ?_⟩
      rw [draws.values x (stage.separate.slots _ _ _ slot) alone (fun bound => quiet x (Or.inr bound))
        fun written => quiet x (Or.inl written)]
      exact value
    · obtain ⟨beyond, place⟩ := offset k (Nat.le_of_not_lt old)
      rw [List.getElem?_append_right (by rw [List.length_take]; omega), List.length_take,
        Nat.min_eq_left (Nat.sub_le _ _)] at found
      refine ⟨start + (k - (vs.length - p)), ?_, cells _ v found⟩
      rw [stack, Array.getElem?_append_right (by rw [length]; exact beyond), length, place,
        Array.getElem?_range', if_pos (List.getElem?_eq_some_iff.1 found).1, Nat.one_mul]

/-- The same if control goes on behind the instruction. -/
theorem pushes (stage : A.Stage m₀ d c m ip vs) (p : Nat) (ws : List Value) {op : Opcode} {a b : Nat}
    (holds : A.frame.closure.unit.Holds ip op a b)
    (plain : op ≠ .ret ∧ op ≠ .putStack ∧ op ≠ .forPrep ∧ op ≠ .closeVars)
    (few : p ≤ vs.length)
    (done : Exec.perform A.frame.closure op a b m.advance = .ok () ((m.advance.drop p).pushAll ws)) :
    ∃ m', A.Crosses ip (ip + 1) m m' ∧ A.Stage m₀ d c m' (ip + 1) (vs.take (vs.length - p) ++ ws) := by
  have inside : (m.advance.drop p).running < (m.advance.drop p).threads.size := by
    simpa [Machine.drop, Machine.advance] using stage.inside
  have thread : ((m.advance.drop p).pushAll ws).current = { m.current with
      stack := m.current.stack.take (m.current.stack.size - p) ++ Array.range' m.store.cells.size ws.length
      frames := A.at' (ip + 1) :: A.below } := by
    rw [Machine.pushAll_eq, Machine.current_withStore, Machine.current_modifyCurrent inside,
      Machine.current_drop (by simpa [Machine.advance] using stage.inside), (stage.poises holds).thread]
    rfl
  have running : ((m.advance.drop p).pushAll ws).running = m.running := by
    rw [Machine.pushAll_eq]
    rfl
  obtain ⟨moves, firm, next⟩ := stage.moves p ws (ip + 1) _ holds plain few done running thread fun k w found => by
    rw [Machine.pushAll_eq]
    have inside := (List.getElem?_eq_some_iff.1 found).1
    have : (m.store.cells ++ ws.toArray)[m.store.cells.size + k]? = some w := by
      rw [Array.getElem?_append_right (Nat.le_add_right _ _), Nat.add_sub_cancel_left, List.getElem?_toArray, found]
    simp [Store.cell, Store.withCells, Machine.advance, Machine.drop, this]
  exact ⟨_, .one stage.there firm moves next.there, next⟩

variable {l : List Value} {v w : Value} {a : Nat}

theorem advance_inside (stage : A.Stage m₀ d c m ip vs) : m.advance.running < m.advance.threads.size := by
  simpa [Machine.advance] using stage.inside

theorem top_last (stage : A.Stage m₀ d c m ip (l ++ [w])) : m.advance.top 1 = w := by
  rw [Machine.top_advance stage.inside]
  exact stage.top_eq (by simp) (by simp)

theorem top_pair (stage : A.Stage m₀ d c m ip (l ++ [v, w])) : m.advance.top 2 = v ∧ m.advance.top 1 = w := by
  rw [Machine.top_advance stage.inside, Machine.top_advance stage.inside]
  exact ⟨stage.top_eq (by simp) (by simp), stage.top_eq (by simp) (by simp)⟩

/-- An operator whose operands are at hand. -/
theorem pair (stage : A.Stage m₀ d c m ip (l ++ [v, w])) {op : Opcode} {r : Value}
    (holds : A.frame.closure.unit.Holds ip op 0 0)
    (plain : op ≠ .ret ∧ op ≠ .putStack ∧ op ≠ .forPrep ∧ op ≠ .closeVars)
    (done : ∀ k : Machine, k.running < k.threads.size → k.top 2 = v → k.top 1 = w →
      Exec.perform A.frame.closure op 0 0 k = .ok () ((k.drop 2).push r)) :
    ∃ m', A.Crosses ip (ip + 1) m m' ∧ A.Stage m₀ d c m' (ip + 1) (l ++ [r]) := by
  obtain ⟨m', crosses, next⟩ := stage.pushes 2 [r] holds plain (by simp)
    (done m.advance stage.advance_inside stage.top_pair.1 stage.top_pair.2)
  exact ⟨m', crosses, by simpa using next⟩

theorem less (stage : A.Stage m₀ d c m ip (l ++ [v, w])) (holds : A.frame.closure.unit.Holds ip .less 0 0) {r : Bool}
    (decided : v.less? w = some r) :
    ∃ m', A.Crosses ip (ip + 1) m m' ∧ A.Stage m₀ d c m' (ip + 1) (l ++ [Value.boolean r]) :=
  stage.pair holds (by simp) fun k inside left right => by
    rw [Exec.perform, Exec.compare, Exec.pop_pop inside, left, right, decided]
    rfl

theorem lessEq (stage : A.Stage m₀ d c m ip (l ++ [v, w])) (holds : A.frame.closure.unit.Holds ip .lessEq 0 0)
    {r : Bool} (decided : v.lessEq? w = some r) :
    ∃ m', A.Crosses ip (ip + 1) m m' ∧ A.Stage m₀ d c m' (ip + 1) (l ++ [Value.boolean r]) :=
  stage.pair holds (by simp) fun k inside left right => by
    rw [Exec.perform, Exec.compare, Exec.pop_pop inside, left, right, decided]
    rfl

theorem and (stage : A.Stage m₀ d c m ip (l ++ [v, w])) (holds : A.frame.closure.unit.Holds ip .and 0 0) :
    ∃ m', A.Crosses ip (ip + 1) m m' ∧ A.Stage m₀ d c m' (ip + 1) (l ++ [if v.isTruthy then w else v]) :=
  stage.pair holds (by simp) fun k inside left right => by
    rw [Exec.perform, Exec.pop_pop inside, left, right]
    rfl

theorem or (stage : A.Stage m₀ d c m ip (l ++ [v, w])) (holds : A.frame.closure.unit.Holds ip .or 0 0) :
    ∃ m', A.Crosses ip (ip + 1) m m' ∧ A.Stage m₀ d c m' (ip + 1) (l ++ [if v.isTruthy then v else w]) :=
  stage.pair holds (by simp) fun k inside left right => by
    rw [Exec.perform, Exec.pop_pop inside, left, right]
    rfl

theorem add {x y : Float} (stage : A.Stage m₀ d c m ip (l ++ [Value.number x, Value.number y]))
    (holds : A.frame.closure.unit.Holds ip .add 0 0) :
    ∃ m', A.Crosses ip (ip + 1) m m' ∧ A.Stage m₀ d c m' (ip + 1) (l ++ [Value.number (x + y)]) :=
  stage.pair holds (by simp) fun k inside left right => by
    rw [Exec.perform, Exec.arithmetic_apply inside, left, right]
    rfl

theorem not (stage : A.Stage m₀ d c m ip (l ++ [v])) (holds : A.frame.closure.unit.Holds ip .not 0 0) :
    ∃ m', A.Crosses ip (ip + 1) m m' ∧ A.Stage m₀ d c m' (ip + 1) (l ++ [Value.boolean !v.isTruthy]) := by
  obtain ⟨m', crosses, next⟩ := stage.pushes 1 [.boolean !v.isTruthy] holds (by simp) (by simp) (by
    simp only [Exec.perform, Exec.bind_apply, Exec.pop_apply, stage.top_last]
    rfl)
  exact ⟨m', crosses, by simpa using next⟩

theorem loadK (stage : A.Stage m₀ d c m ip vs) (holds : A.frame.closure.unit.Holds ip .loadK a 0)
    (found : A.frame.closure.unit.constants[a]? = some v) :
    ∃ m', A.Crosses ip (ip + 1) m m' ∧ A.Stage m₀ d c m' (ip + 1) (vs ++ [v]) := by
  obtain ⟨m', crosses, next⟩ := stage.pushes 0 [v] holds (by simp) (Nat.zero_le _) (by
    simp only [Exec.perform, Exec.constant, found, Exec.bind_apply, Exec.pure_apply]
    rw [Machine.drop_zero]
    rfl)
  exact ⟨m', crosses, by simpa using next⟩

/-- An instruction finds the values on top of the stack. -/
theorem peek (stage : A.Stage m₀ d c m ip vs) {op : Opcode} {a b n : Nat} (holds : A.frame.closure.unit.Holds ip op a b)
    (found : vs[vs.length - n]? = some v) (few : n ≤ vs.length) : Exec.peek n m.advance = .ok v m.advance := by
  obtain ⟨x, cell, -, value⟩ := stage.top found few
  have cell : m.advance.current.cell? n = some x := by
    rw [(stage.poises holds).thread]
    exact cell
  rw [Exec.peek_apply cell]
  exact congrArg (EStateM.Result.ok · m.advance) value

/-- A value further down is pushed once more. -/
theorem getStack (stage : A.Stage m₀ d c m ip vs) (holds : A.frame.closure.unit.Holds ip .getStack a 0)
    (found : vs[vs.length - a]? = some v) (few : a ≤ vs.length) :
    ∃ m', A.Crosses ip (ip + 1) m m' ∧ A.Stage m₀ d c m' (ip + 1) (vs ++ [v]) := by
  obtain ⟨m', crosses, next⟩ := stage.pushes 0 [v] holds (by simp) (Nat.zero_le _) (by
    simp only [Exec.perform, Exec.bind_apply, stage.peek holds found few]
    rw [Machine.drop_zero]
    rfl)
  exact ⟨m', crosses, by simpa using next⟩

theorem popStack (stage : A.Stage m₀ d c m ip (l ++ vs)) (holds : A.frame.closure.unit.Holds ip .popStack vs.length 0) :
    ∃ m', A.Crosses ip (ip + 1) m m' ∧ A.Stage m₀ d c m' (ip + 1) l := by
  obtain ⟨m', crosses, next⟩ := stage.pushes vs.length [] holds (by simp) (by simp) (by
    simp only [Exec.perform, Exec.modify_apply, Array.shrink_eq_take]
    rfl)
  exact ⟨m', crosses, by simpa using next⟩

theorem forM_push (vs : List Value) (m : Machine) : vs.forM Exec.push m = .ok () (m.pushAll vs) := by
  induction vs generalizing m with
  | nil => rfl
  | cons v vs ih => exact ih (m.push v)

/-- The multi-value on top is expanded. -/
theorem popVarArgs (stage : A.Stage m₀ d c m ip (l ++ [v])) (holds : A.frame.closure.unit.Holds ip .popVarArgs a 1) :
    ∃ m', A.Crosses ip (ip + 1) m m' ∧ A.Stage m₀ d c m' (ip + 1) (l ++ Value.adjust a v.spread) := by
  have peeked : Exec.peek 1 m.advance = .ok v m.advance := stage.peek holds (by simp) (by simp)
  obtain ⟨m', crosses, next⟩ := stage.pushes 1 (Value.adjust a v.spread) holds (by simp) (by simp) (by
    simp only [Exec.perform, Exec.popVarArgs, Exec.bind_apply, peeked, Exec.modify_apply, pop_eq_take]
    exact forM_push _ _)
  exact ⟨m', crosses, by simpa using next⟩

/-- The same, and what is not expanded stays below. -/
theorem splitVarArgs (stage : A.Stage m₀ d c m ip (l ++ [v])) (holds : A.frame.closure.unit.Holds ip .popVarArgs a 0) :
    ∃ m', A.Crosses ip (ip + 1) m m' ∧
      A.Stage m₀ d c m' (ip + 1) (l ++ .multi (v.spread.drop a) :: Value.adjust a v.spread) := by
  have peeked : Exec.peek 1 m.advance = .ok v m.advance := stage.peek holds (by simp) (by simp)
  obtain ⟨m', crosses, next⟩ := stage.pushes 1 (.multi (v.spread.drop a) :: Value.adjust a v.spread) holds
    (by simp) (by simp) (by
      simp only [Exec.perform, Exec.popVarArgs, Exec.bind_apply, peeked, Exec.modify_apply, pop_eq_take]
      exact forM_push _ _)
  exact ⟨m', crosses, by simpa using next⟩

/-- A jump to `ip'`. -/
theorem jmp (stage : A.Stage m₀ d c m ip vs) (holds : A.frame.closure.unit.Holds ip .jmp ip' 0) :
    ∃ m', m.Moves m' ∧ ¬m.Slips ∧ A.Stage m₀ d c m' ip' vs := by
  have jumped : (m.advance.modifyCurrent (·.modifyFrame ({ · with ip := ip' }))).current =
      { m.current with frames := A.at' ip' :: A.below } := by
    rw [Machine.current_modifyCurrent stage.advance_inside, (stage.poises holds).thread]
    rfl
  obtain ⟨moves, firm, next⟩ := stage.moves 0 [] ip' 0 holds (by simp)
    (Nat.zero_le _) rfl rfl (by rw [jumped]; simp) (by simp)
  exact ⟨_, moves, firm, by simpa using next⟩

/-- A condition is taken away, and control goes to `ip'` if it holds. -/
theorem jmpTrue (stage : A.Stage m₀ d c m ip (l ++ [v])) (holds : A.frame.closure.unit.Holds ip .jmpTrue ip' 0) :
    ∃ m', m.Moves m' ∧ ¬m.Slips ∧ A.Stage m₀ d c m' (if v.isTruthy then ip' else ip + 1) l := by
  have thread : (m.advance.drop 1).current = { m.current with
      stack := m.current.stack.take (m.current.stack.size - 1)
      frames := A.at' (ip + 1) :: A.below } := by
    rw [Machine.current_drop stage.advance_inside, (stage.poises holds).thread]
    rfl
  have few : 1 ≤ (l ++ [v]).length := by simp
  cases condition : v.isTruthy with
  | false =>
    have done : Exec.perform A.frame.closure .jmpTrue ip' 0 m.advance = .ok () (m.advance.drop 1) := by
      simp only [Exec.perform, if_neg (show ¬0 = 1 by omega), Exec.bind_apply, Exec.pop_apply, stage.top_last, condition]
      rfl
    obtain ⟨moves, firm, next⟩ := stage.moves 1 [] (ip + 1) 0 holds (by simp) few done rfl
      (by rw [thread]; simp) (by simp)
    exact ⟨_, moves, firm, by simpa using next⟩
  | true =>
    have done : Exec.perform A.frame.closure .jmpTrue ip' 0 m.advance =
        .ok () ((m.advance.drop 1).modifyCurrent (·.modifyFrame ({ · with ip := ip' }))) := by
      simp only [Exec.perform, if_neg (show ¬0 = 1 by omega), Exec.bind_apply, Exec.pop_apply, stage.top_last, condition]
      rfl
    have jumped : ((m.advance.drop 1).modifyCurrent (·.modifyFrame ({ · with ip := ip' }))).current = { m.current with
        stack := m.current.stack.take (m.current.stack.size - 1)
        frames := A.at' ip' :: A.below } := by
      rw [Machine.current_modifyCurrent (by simpa [Machine.drop] using stage.advance_inside), thread]
      rfl
    obtain ⟨moves, firm, next⟩ := stage.moves 1 [] ip' 0 holds (by simp) few done rfl
      (by rw [jumped]; simp) (by simp)
    exact ⟨_, moves, firm, by simpa using next⟩

end Stage

end Activation

end ScriptEngine
