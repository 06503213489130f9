import ScriptEngine.Proofs.Machine.Environment
import ScriptEngine.Proofs.Machine.Stage

/-!
# Control slots

The topmost slots of a frame, if they are no local's, hold temporaries (`Machine.Poises.stage`). What a numeric loop
does with the three of them that control it: `forPrep` makes numbers of them or fails (`forFault?`), and the variable
of an iteration gets its cell from a copy of the first one (`Stage.bind`). Whatever else is on top of them is taken
away again (`Bed.popStack`, `Bed.popClosed`).
-/

set_option linter.dupNamespace false

namespace ScriptEngine

open Compiler

namespace Store

variable {s : Store} {x y : Nat} {v : Value}

theorem cell_setCell (inside : x < s.cells.size) : (s.setCell x v).cell x = v := by
  simp [cell, setCell, inside]

theorem cell_setCell_ne (other : x ≠ y) : (s.setCell x v).cell y = s.cell y := by
  simp [cell, setCell, Array.getElem?_setIfInBounds_ne other]

end Store

/-- What is wrong with the control values of a numeric loop, if anything is. -/
def forFault? (start limit step : Value) : Option String :=
  match start.coerce?, limit.coerce?, step.coerce? with
  | none, _, _ => some "initial value must be a number"
  | some _, none, _ => some "limit must be a number"
  | some _, some _, none => some "step must be a number"
  | some _, some _, some z => if (z == 0.0) = true then some "step is zero" else none

namespace Exec

variable {m : Machine}

theorem forControl_ok {n x : Nat} {y : Float} (found : m.current.cell? n = some x)
    (coerces : (m.store.cell x).coerce? = some y) (message : String) :
    forControl n message m = .ok () { m with store := m.store.setCell x (.number y) } := by
  simp only [forControl, bind_apply, slot_apply found, get_apply, coerces]
  rfl

theorem forControl_error {n x : Nat} (found : m.current.cell? n = some x) (fails : (m.store.cell x).coerce? = none)
    (message : String) : forControl n message m = .error (.forLoop message) m := by
  simp only [forControl, bind_apply, slot_apply found, get_apply, fails]
  rfl

/-- The control slots become numbers, or the loop fails. -/
theorem forPrep_apply {x y z : Nat} (start : m.current.cell? 3 = some x) (limit : m.current.cell? 2 = some y)
    (step : m.current.cell? 1 = some z) (apart : x ≠ y ∧ x ≠ z ∧ y ≠ z) (inside : z < m.store.cells.size) :
    (∀ message, forFault? (m.store.cell x) (m.store.cell y) (m.store.cell z) = some message →
      ∃ k, forPrep m = .error (.forLoop message) k) ∧
    ∀ a b c, (m.store.cell x).coerce? = some a → (m.store.cell y).coerce? = some b →
      (m.store.cell z).coerce? = some c → (c == 0.0) = false → forPrep m = .ok () { m with
        store := ((m.store.setCell x (.number a)).setCell y (.number b)).setCell z (.number c) } := by
  obtain ⟨first, second, third⟩ := apart
  unfold forFault?
  cases hx : (m.store.cell x).coerce? with
  | none =>
    refine ⟨fun message same => ?_, by rintro _ _ _ ⟨⟩⟩
    cases same
    simp only [forPrep, bind_apply, forControl_error start hx]
    exact ⟨_, rfl⟩
  | some a =>
    let m₁ : Machine := { m with store := m.store.setCell x (.number a) }
    have done₁ : forControl 3 "initial value must be a number" m = .ok () m₁ := forControl_ok start hx _
    have limit₁ : m₁.current.cell? 2 = some y := limit
    have same₁ : m₁.store.cell y = m.store.cell y := Store.cell_setCell_ne first
    cases hy : (m.store.cell y).coerce? with
    | none =>
      refine ⟨fun message same => ?_, by rintro _ _ _ - ⟨⟩⟩
      cases same
      simp only [forPrep, bind_apply, done₁, forControl_error limit₁ (by rw [same₁, hy])]
      exact ⟨_, rfl⟩
    | some b =>
      let m₂ : Machine := { m₁ with store := m₁.store.setCell y (.number b) }
      have done₂ : forControl 2 "limit must be a number" m₁ = .ok () m₂ := forControl_ok limit₁ (by rw [same₁, hy]) _
      have step₂ : m₂.current.cell? 1 = some z := step
      have same₂ : m₂.store.cell z = m.store.cell z :=
        (Store.cell_setCell_ne third).trans (Store.cell_setCell_ne second)
      cases hz : (m.store.cell z).coerce? with
      | none =>
        refine ⟨fun message same => ?_, by rintro _ _ _ - - ⟨⟩⟩
        cases same
        simp only [forPrep, bind_apply, done₁, done₂, forControl_error step₂ (by rw [same₂, hz])]
        exact ⟨_, rfl⟩
      | some c =>
        let m₃ : Machine := { m₂ with store := m₂.store.setCell z (.number c) }
        have done₃ : forControl 1 "step must be a number" m₂ = .ok () m₃ := forControl_ok step₂ (by rw [same₂, hz]) _
        have step₃ : m₃.current.cell? 1 = some z := step
        have last : m₃.store.cell z = .number c := Store.cell_setCell (by simpa [m₂, m₁, Store.setCell] using inside)
        refine ⟨fun message same => ?_, fun a' b' c' ha hb hc some' => ?_⟩
        · simp only [Option.ite_none_right_eq_some, Option.some.injEq] at same
          obtain ⟨zero, rfl⟩ := same
          simp only [forPrep, bind_apply, done₁, done₂, done₃, peek_apply step₃, last,
            if_pos (show (Value.number c == .number 0.0) = true from zero)]
          exact ⟨_, rfl⟩
        · cases ha
          cases hb
          cases hc
          simp only [forPrep, bind_apply, done₁, done₂, done₃, peek_apply step₃, last,
            show (Value.number c == .number 0.0) = false from some']
          rfl

end Exec

namespace Machine

variable {m : Machine} {f : Frame} {rest : List Frame} {op : Opcode} {a b n : Nat} {enclosing : List (String × Nat)}
  {C : Chart}

/-- The topmost slots, if they are no local's, hold temporaries. -/
theorem Poises.stage (poises : m.Poises f rest op a b) (ordered : m.Ordered Thread.Active) (settled : m.Scoped)
    (charts : f.closure.Charts enclosing C) (few : n ≤ (C f.ip).scope.depth)
    (free : ∀ l ∈ (C f.ip).scope.locals, l.slot < (C f.ip).scope.depth → l.slot + n < (C f.ip).scope.depth) :
    Activation.Stage ⟨m.running, f, rest⟩ m ((C f.ip).scope.depth - n) (C f.ip).scope.closed m f.ip
      ((List.range n).map fun k => m.top (n - k)) := by
  obtain ⟨depth, closed⟩ := poises.depths charts
  have full : m.current.stack.size =
      f.base + ((C f.ip).scope.depth - n) + ((List.range n).map fun k => m.top (n - k)).length := by
    rw [List.length_map, List.length_range]
    omega
  refine ⟨⟨ordered, settled.separate, ⟨rfl, poises.frames⟩, full.ge, fun _ _ => rfl, fun k v found => ?_⟩, closed, full⟩
  have inside : k < n := by simpa using (List.getElem?_eq_some_iff.1 found).1
  have high : f.base + ((C f.ip).scope.depth - n) + k < m.current.stack.size := by omega
  have slot : m.Slot m.running (f.base + ((C f.ip).scope.depth - n) + k)
      m.current.stack[f.base + ((C f.ip).scope.depth - n) + k] := Array.getElem?_eq_getElem high
  refine ⟨_, slot, settled.hidden _ _ _ slot ?_, ?_⟩
  · rw [show m.thread m.running = m.current from rfl, Thread.Temporary, poises.frames]
    refine Or.inl ⟨by omega, by omega, C, ⟨enclosing, charts.suits⟩, fun l mem same => ?_⟩
    have := free l mem (by omega)
    omega
  · rw [List.getElem?_map, List.getElem?_range inside, Option.map_some] at found
    cases found
    have cell : m.current.cell? (n - k) = some m.current.stack[f.base + ((C f.ip).scope.depth - n) + k] := by
      rw [Thread.cell?, if_pos (by omega), ← Array.getElem?_eq_getElem high]
      congr 1
      omega
    rw [top, cell]
    rfl

end Machine

namespace Activation

variable {A : Activation} {m₀ m m' : Machine} {d c ip : Nat} {l vs : List Value} {start limit step : Value}

namespace Stage

/-- The three topmost slots, whose cells differ. -/
theorem top_three (stage : A.Stage m₀ d c m ip (l ++ [start, limit, step])) :
    ∃ x y z, (m.current.stack[A.frame.base + d + l.length]? = some x ∧
        m.current.stack[A.frame.base + d + l.length + 1]? = some y ∧
        m.current.stack[A.frame.base + d + l.length + 2]? = some z) ∧
      (x ≠ y ∧ x ≠ z ∧ y ≠ z) ∧ (x < m.store.cells.size ∧ y < m.store.cells.size ∧ z < m.store.cells.size) ∧
      m.store.cell x = start ∧ m.store.cell y = limit ∧ m.store.cell z = step := by
  have value (k : Nat) {v : Value} (found : (l ++ [start, limit, step])[l.length + k]? = some v) :
      ∃ x, m.current.stack[A.frame.base + d + l.length + k]? = some x ∧ m.store.cell x = v := by
    obtain ⟨x, slot, -, value⟩ := stage.values _ v found
    rw [Machine.Slot, stage.thread, ← Nat.add_assoc] at slot
    exact ⟨x, slot, value⟩
  obtain ⟨x, third, value₀⟩ := value 0 (v := start) (by simp)
  obtain ⟨y, second, value₁⟩ := value 1 (v := limit) (by simp)
  obtain ⟨z, first, value₂⟩ := value 2 (v := step) (by simp)
  have slot {k x : Nat} (found : m.current.stack[k]? = some x) : m.Slot A.id k x := by
    rw [Machine.Slot, stage.thread]
    exact found
  have apart {k k' x x' : Nat} (found : m.current.stack[k]? = some x) (found' : m.current.stack[k']? = some x')
      (other : k ≠ k') : x ≠ x' := by
    rintro rfl
    exact other (stage.separate.single _ _ _ _ _ (slot found) (slot found')).2
  exact ⟨x, y, z, ⟨third, second, first⟩,
    ⟨apart third second (by omega), apart third first (by omega), apart second first (by omega)⟩,
    ⟨stage.separate.slots _ _ _ (slot third), stage.separate.slots _ _ _ (slot second),
      stage.separate.slots _ _ _ (slot first)⟩, value₀, value₁, value₂⟩

/-- What the preparation of a loop does with the three topmost slots. -/
theorem forPrep_step (stage : A.Stage m₀ d c m ip (l ++ [start, limit, step]))
    (holds : A.frame.closure.unit.Holds ip .forPrep 0 0) :
    (∀ message, forFault? start limit step = some message → ∃ k, Exec.step m = .error (.forLoop message) k) ∧
    ∀ x y z, start.coerce? = some x → limit.coerce? = some y → step.coerce? = some z → (z == 0.0) = false →
      ∃ p q r, (m.current.stack[A.frame.base + d + l.length]? = some p ∧
          m.current.stack[A.frame.base + d + l.length + 1]? = some q ∧
          m.current.stack[A.frame.base + d + l.length + 2]? = some r) ∧
        (p ≠ q ∧ p ≠ r ∧ q ≠ r) ∧ (p < m.store.cells.size ∧ q < m.store.cells.size ∧ r < m.store.cells.size) ∧
        Exec.step m = .ok none { m.advance with
          store := ((m.store.setCell p (.number x)).setCell q (.number y)).setCell r (.number z) } := by
  obtain ⟨p, q, r, ⟨third, second, first⟩, apart, inside, rfl, rfl, rfl⟩ := stage.top_three
  have poises := stage.poises holds
  have size := stage.size
  simp only [List.length_append, List.length_cons, List.length_nil] at size
  have cell {n k x : Nat} (found : m.current.stack[k]? = some x) (deep : k + n = m.current.stack.size) :
      m.advance.current.cell? n = some x := by
    rw [poises.thread, Thread.cell?, if_pos (by simp only; omega)]
    simp only
    rw [show m.current.stack.size - n = k by omega, found]
  have prepared := Exec.forPrep_apply (m := m.advance) (cell (n := 3) third (by omega)) (cell (n := 2) second (by omega))
    (cell (n := 1) first (by omega)) apart inside.2.2
  have step : Exec.step m = (do Exec.forPrep; pure none) m.advance := poises.performs (by simp)
  rw [Exec.bind_apply] at step
  refine ⟨fun message fault => ?_, fun x y z starts limits steps some' =>
    ⟨p, q, r, ⟨third, second, first⟩, apart, inside, ?_⟩⟩
  · obtain ⟨k, failed⟩ := prepared.1 message fault
    rw [failed] at step
    exact ⟨k, step⟩
  · rw [prepared.2 x y z starts limits steps some'] at step
    exact step

theorem forPrep (stage : A.Stage m₀ d c m ip [start, limit, step]) (holds : A.frame.closure.unit.Holds ip .forPrep 0 0)
    {x y z : Float} (starts : start.coerce? = some x) (limits : limit.coerce? = some y) (steps : step.coerce? = some z)
    (some' : (z == 0.0) = false) :
    ∃ m', A.Crosses ip (ip + 1) m m' ∧ A.Stage m₀ d c m' (ip + 1) [.number x, .number y, .number z] := by
  have top : A.Stage m₀ d c m ip ([] ++ [start, limit, step]) := stage
  have poises := stage.poises holds
  obtain ⟨p, q, r, ⟨third, second, first⟩, ⟨apart, apart', apart''⟩, ⟨inside, inside', inside''⟩, step⟩ :=
    (top.forPrep_step holds).2 x y z starts limits steps some'
  have cells (s : Store) (k : Nat) (v : Value) : (s.setCell k v).cells.size = s.cells.size := by simp [Store.setCell]
  -- only the running thread, the store and its cells matter of the machine that comes about
  obtain ⟨m', step', running, thread, store⟩ : ∃ m' : Machine, Exec.step m = .ok none m' ∧ m'.running = m.running ∧
      m'.current = { m.current with frames := A.at' (ip + 1) :: A.below } ∧
      m'.store = ((m.store.setCell p (.number x)).setCell q (.number y)).setCell r (.number z) :=
    ⟨_, step, rfl, (Machine.current_withStore _).trans poises.thread, rfl⟩
  have there : A.At m' (ip + 1) := ⟨running.trans stage.there.running, by rw [thread]⟩
  have stack : m'.current.stack = m.current.stack := by rw [thread]
  obtain ⟨moves, firm, next⟩ := stage.step [.number x, .number y, .number z] step'
    (fun w bound => by simp [Machine.nextDeeds, poises.instruction, Machine.deeds] at bound) there
    (by rw [thread]) (by rw [stack, stage.size]; rfl) (fun k _ => by rw [stack]) fun k v found => by
      rw [stack, store]
      rcases k with _ | _ | _ | k
      · cases found
        refine ⟨p, third, ?_⟩
        rw [Store.cell_setCell_ne apart'.symm, Store.cell_setCell_ne apart.symm, Store.cell_setCell inside]
      · cases found
        refine ⟨q, second, ?_⟩
        rw [Store.cell_setCell_ne apart''.symm, Store.cell_setCell (by rw [cells]; exact inside')]
      · cases found
        exact ⟨r, first, Store.cell_setCell (by rw [cells, cells]; exact inside'')⟩
      · cases found
  exact ⟨_, .one stage.there firm moves there, next⟩

/-- A value goes to one of the slots below it. -/
theorem putStack {v : Value} {a : Nat} (stage : A.Stage m₀ d c m ip (l ++ [v]))
    (holds : A.frame.closure.unit.Holds ip .putStack a 0) (low : 2 ≤ a) (high : a ≤ l.length + 1) :
    ∃ m', A.Crosses ip (ip + 1) m m' ∧ A.Stage m₀ d c m' (ip + 1) (l.set (l.length + 1 - a) v) := by
  have poises := stage.poises holds
  have size := stage.size
  simp only [List.length_append, List.length_cons, List.length_nil] at size
  obtain ⟨x, slot, -, -⟩ := stage.values (l.length + 1 - a) _ (List.getElem?_eq_getElem (by simp; omega))
  have top := stage.top_last
  have current : m.advance.current = { m.current with frames := A.at' (ip + 1) :: A.below } := poises.thread
  have cell : m.advance.current.cell? a = some x := by
    rw [current, Thread.cell?, if_pos (by simp only; omega)]
    rw [Machine.Slot, stage.thread] at slot
    simp only
    rw [← slot]
    congr 1
    omega
  let m' : Machine := { m.advance.drop 1 with store := m.store.setCell x v }
  have step : Exec.step m = .ok none m' := by
    rw [poises.performs (by simp), Exec.bind_apply, closure_at']
    simp only [Exec.perform, Exec.bind_apply, Exec.slot_apply cell, Exec.pop_apply, Exec.setCell, Exec.modify_apply, top]
    rfl
  have thread : m'.current = { m.current with
      stack := m.current.stack.take (m.current.stack.size - 1)
      frames := A.at' (ip + 1) :: A.below } := by
    show (m.advance.drop 1).current = _
    rw [Machine.current_drop stage.advance_inside, current]
  have there : A.At m' (ip + 1) := ⟨stage.there.running, by rw [thread]⟩
  have stack (k : Nat) (inside : k < m.current.stack.size - 1) : m'.current.stack[k]? = m.current.stack[k]? := by
    rw [thread]
    simp only
    rw [Array.getElem?_extract, if_pos (by omega), Nat.zero_add]
  obtain ⟨moves, firm, next⟩ := stage.step (l.set (l.length + 1 - a) v) step
    (fun w bound => by simp [Machine.nextDeeds, poises.instruction, Machine.deeds] at bound) there (by rw [thread])
    (by rw [thread, List.length_set]; simp only [Array.size_extract]; omega) (fun k inside => stack k (by omega))
    fun k w found => by
      have inside := (List.getElem?_eq_some_iff.1 found).1
      rw [List.length_set] at inside
      by_cases here : l.length + 1 - a = k
      · rw [here, List.getElem?_set_self inside] at found
        cases found
        refine ⟨x, ?_, Store.cell_setCell (stage.separate.slots _ _ _ slot)⟩
        rw [stack _ (by omega), ← here, ← slot, stage.thread]
      · rw [List.getElem?_set_ne here, ← List.getElem?_append_left inside] at found
        obtain ⟨y, slot', -, value⟩ := stage.values k w found
        refine ⟨y, ?_, ?_⟩
        · rw [stack _ (by omega), ← slot', stage.thread]
        · rw [← value]
          refine Store.cell_setCell_ne ?_
          rintro rfl
          have := (stage.separate.single _ _ _ _ _ slot slot').2
          omega
  exact ⟨_, .one stage.there firm moves there, next⟩

end Stage

/-- The topmost value becomes that of a variable: its cell is closed over. -/
theorem Stage.bind {v : Value} (stage : A.Stage m₀ d c m ip (vs ++ [v]))
    (holds : A.frame.closure.unit.Holds ip .closeVars 1 0) : ∃ m' x, A.Crosses ip (ip + 1) m m' ∧
      A.Bed m₀ d m' (ip + 1) vs ∧ m'.current.stack = m.current.stack ∧ m'.store = m.store ∧
      m'.current.captures = m.current.captures.push x ∧ m.Slot A.id (A.frame.base + d + vs.length) x ∧
      m.store.cell x = v := by
  have poises := stage.poises holds
  have size := stage.size
  simp only [List.length_append, List.length_cons, List.length_nil] at size
  obtain ⟨x, slot, -, value⟩ := stage.values vs.length v (by simp)
  have found : m.current.stack[A.frame.base + d + vs.length]? = some x := by rw [← stage.thread]; exact slot
  have current : m.advance.current = { m.current with frames := A.at' (ip + 1) :: A.below } := poises.thread
  have last : m.current.stack.extract (m.current.stack.size - 1) m.current.stack.size = #[x] := by
    apply Array.ext_getElem?
    intro k
    rw [Array.getElem?_extract]
    cases k with
    | zero =>
      rw [if_pos (by omega), show m.current.stack.size - 1 + 0 = A.frame.base + d + vs.length by omega, found]
      rfl
    | succ k =>
      rw [if_neg (by omega)]
      rfl
  let m' := m.advance.modifyCurrent fun t => { t with captures := t.captures.push x }
  have step : Exec.step m = .ok none m' := by
    rw [poises.performs (by simp), Exec.bind_apply, closure_at']
    have enough : ¬m.advance.current.stack.size < 1 := by
      rw [current]
      simp only
      omega
    simp only [Exec.perform, Exec.closeVars, Exec.bind_apply, Exec.get_apply, if_neg enough, Exec.modify_apply]
    have same : m.advance.current.captures ++ m.advance.current.stack.extract (m.advance.current.stack.size - 1)
        m.advance.current.stack.size = m.advance.current.captures.push x := by
      rw [show m.advance.current.stack = m.current.stack by rw [current], last]
      rfl
    have closes : m.advance.modifyCurrent (fun t =>
        { t with captures := t.captures ++
          t.stack.extract (m.advance.current.stack.size - 1) m.advance.current.stack.size }) =
        m' := by
      apply Machine.modifyThread_congr
      exact congrArg (fun captures => { m.advance.current with captures }) same
    rw [closes]
    rfl
  have thread : m'.current = { m.current with
      captures := m.current.captures.push x
      frames := A.at' (ip + 1) :: A.below } := by
    rw [Machine.current_modifyCurrent stage.advance_inside, current]
  have there : A.At m' (ip + 1) := ⟨stage.there.running, by rw [thread]⟩
  have stack : m'.current.stack = m.current.stack := by rw [thread]
  have slots (k : Nat) (y : Nat) (same : m'.Slot A.id k y) : m.Slot A.id k y := by
    rw [Machine.Slot, there.current, stack] at same
    rw [Machine.Slot, stage.thread]
    exact same
  obtain ⟨moves, firm, next⟩ := stage.toBed.step vs step there (by rw [stack]; omega)
    (fun k _ => by rw [stack])
    (fun k y inside slot' shared => by
      obtain ⟨z, slot'', alone, -⟩ := stage.values k _ (List.getElem?_eq_getElem (by simp; omega))
      obtain rfl : y = z := Option.some.inj (slot'.symm.trans slot'')
      exact alone shared)
    (fun k y inside slot' bound => by
      simp only [Machine.nextDeeds, poises.instruction, Machine.deeds, last, true_and] at bound
      obtain rfl : y = x := by simpa using bound
      have := (stage.separate.single _ _ _ _ _ (slots _ _ slot') slot).2
      omega)
    fun k w found' => by
      have inside := (List.getElem?_eq_some_iff.1 found').1
      obtain ⟨y, slot', -, value'⟩ := stage.values k w (by rw [List.getElem?_append_left inside]; exact found')
      exact ⟨y, by rw [stack, ← slot', stage.thread], value'⟩
  exact ⟨m', x, .one stage.there firm moves there, next, stack, rfl, by rw [thread], slot, value⟩

namespace Bed

/-- An instruction that only takes slots above the values away. -/
theorem lowers (bed : A.Bed m₀ d m ip vs) (m' : Machine) (n : Nat) {op : Opcode} {a b : Nat}
    (holds : A.frame.closure.unit.Holds ip op a b)
    (plain : op ≠ .ret ∧ op ≠ .putStack ∧ op ≠ .forPrep ∧ op ≠ .closeVars)
    (done : Exec.perform A.frame.closure op a b m.advance = .ok () m') (running : m'.running = m.running)
    (frames : m'.current.frames = A.at' (ip + 1) :: A.below) (store : m'.store = m.store)
    (stack : m'.current.stack = m.current.stack.take n) (high : A.frame.base + d + vs.length ≤ n) :
    A.Crosses ip (ip + 1) m m' ∧ A.Bed m₀ d m' (ip + 1) vs := by
  have poises := bed.poises holds
  have room := bed.room
  have step : Exec.step m = .ok none m' := by
    rw [poises.performs plain.1, Exec.bind_apply, closure_at', done]
    rfl
  have there : A.At m' (ip + 1) := ⟨running.trans bed.there.running, frames⟩
  have kept (k : Nat) (low : k < A.frame.base + d + vs.length) : m'.current.stack[k]? = m.current.stack[k]? := by
    rw [stack, Array.getElem?_extract, if_pos (by omega), Nat.zero_add]
  obtain ⟨moves, firm, next⟩ := bed.step vs step there (by rw [stack, Array.size_extract]; omega)
    (fun k low => kept k (by omega))
    (fun k x inside slot shared => by
      obtain ⟨y, slot', alone, -⟩ := bed.values k _ (List.getElem?_eq_getElem inside)
      obtain rfl : x = y := Option.some.inj (slot.symm.trans slot')
      exact alone shared)
    (fun k x _ _ bound => by
      simp only [Machine.nextDeeds, poises.instruction, Machine.deeds, plain, false_and] at bound)
    fun k v found => by
      have inside := (List.getElem?_eq_some_iff.1 found).1
      obtain ⟨x, slot, -, value⟩ := bed.values k v found
      rw [Machine.Slot, bed.thread] at slot
      refine ⟨x, by rw [kept _ (by omega), slot], ?_⟩
      rw [store]
      exact value
  exact ⟨.one bed.there firm moves there, next⟩

/-- Slots above the values are taken away. -/
theorem popStack {a : Nat} (bed : A.Bed m₀ d m ip vs) (holds : A.frame.closure.unit.Holds ip .popStack a 0)
    (room : A.frame.base + d + vs.length + a ≤ m.current.stack.size) :
    ∃ m', A.Crosses ip (ip + 1) m m' ∧ A.Bed m₀ d m' (ip + 1) vs ∧
      m'.current.stack.size = m.current.stack.size - a ∧ m'.current.captures = m.current.captures ∧
      m'.store = m.store := by
  have thread : (m.advance.drop a).current = { m.current with
      stack := m.current.stack.take (m.current.stack.size - a)
      frames := A.at' (ip + 1) :: A.below } := by
    rw [Machine.current_drop (by simpa [Machine.advance] using bed.inside), (bed.poises holds).thread]
    rfl
  obtain ⟨crosses, next⟩ := bed.lowers (m.advance.drop a) (m.current.stack.size - a) holds (by simp)
    (by simp only [Exec.perform, Exec.modify_apply, Array.shrink_eq_take]; rfl) rfl (by rw [thread]) rfl
    (by rw [thread]) (by omega)
  refine ⟨_, crosses, next, ?_, by rw [thread], rfl⟩
  rw [thread]
  simp only [Array.size_extract]
  omega

/-- Variables that were closed over are released. -/
theorem popClosed {a : Nat} (bed : A.Bed m₀ d m ip vs) (holds : A.frame.closure.unit.Holds ip .popClosed a 0) :
    ∃ m', A.Crosses ip (ip + 1) m m' ∧ A.Bed m₀ d m' (ip + 1) vs ∧ m'.current.stack = m.current.stack ∧
      m'.current.captures.size = m.current.captures.size - a ∧ m'.store = m.store := by
  let m' := m.advance.modifyCurrent fun t => { t with captures := t.captures.shrink (t.captures.size - a) }
  have thread : m'.current = { m.current with
      captures := m.current.captures.shrink (m.current.captures.size - a)
      frames := A.at' (ip + 1) :: A.below } := by
    rw [Machine.current_modifyCurrent (by simpa [Machine.advance] using bed.inside), (bed.poises holds).thread]
    rfl
  obtain ⟨crosses, next⟩ := bed.lowers m' m.current.stack.size holds (by simp) rfl rfl
    (by rw [thread]) rfl (by rw [thread]; simp) bed.room
  refine ⟨m', crosses, next, by rw [thread], ?_, rfl⟩
  rw [thread]
  simp

end Bed

end Activation

end ScriptEngine
