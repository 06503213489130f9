import ScriptEngine.Proofs.Evaluation.Program
import ScriptEngine.Proofs.Machine.Steps

/-!
# Pictures of a running chunk

A machine that runs one chunk and nothing else is described by an address, the values on its stack and
a world (`Shows`). In such a picture an operator's instruction does to the topmost values what the
operator does by itself: `Implements` has one statement for each of these instructions.
-/

set_option linter.dupNamespace false

namespace ScriptEngine

/-- The instruction at an address with its operands. -/
def CodeUnit.Holds (u : CodeUnit) (ip : Nat) (op : Opcode) (a b : Nat) : Prop :=
  ∃ ins, u.code[ip]? = some ins ∧ ins.opcode? = some op ∧ ins.a.toNat = a ∧ ins.b.toNat = b

/-- No table has a metatable. -/
def World.Bare (w : World) : Prop := ∀ t ∈ w.tables, t.metatable = none

namespace Machine

variable {m : Machine} {u : CodeUnit} {ip : Nat} {vs : List Value} {w : World}

/-- The machine runs the chunk `u`, no call of another function is active, and no protected call. The
next instruction is the one at `ip`, and the stack holds `vs`, the oldest first, each in a cell of its
own. -/
structure Shows (m : Machine) (u : CodeUnit) (ip : Nat) (vs : List Value) (w : World) : Prop where
  running : m.running = 0
  waiting : m.waiting = []
  inside : m.running < m.threads.size
  frames : m.current.frames = [⟨⟨u, #[]⟩, ip, 0, 0, 0, 0, false⟩]
  handlers : m.current.handlers = []
  values : m.current.stack.toList.map m.store.cell = vs
  distinct : m.current.stack.toList.Nodup
  cells : ∀ c ∈ m.current.stack.toList, c < m.store.cells.size
  globals : m.globals = w.globals
  tables : m.store.tables = w.tables
  bare : w.Bare

namespace Shows

theorem size (h : m.Shows u ip vs w) : m.current.stack.size = vs.length := by
  rw [← h.values]
  simp

/-! ## Changes of the picture -/

/-- A change of the running thread that leaves its stack and its handlers alone. -/
theorem turn (h : m.Shows u ip vs w) (f : Thread → Thread) {ip' : Nat}
    (stack : (f m.current).stack = m.current.stack)
    (handlers : (f m.current).handlers = m.current.handlers)
    (frames : (f m.current).frames = [⟨⟨u, #[]⟩, ip', 0, 0, 0, 0, false⟩]) :
    (m.modifyCurrent f).Shows u ip' vs w := by
  have current := current_modifyCurrent (f := f) h.inside
  refine ⟨h.running, h.waiting, by simpa using h.inside, by rw [current, frames], ?_, ?_, ?_, ?_,
    h.globals, h.tables, h.bare⟩
  · rw [current, handlers, h.handlers]
  · rw [current, stack]
    exact h.values
  · rw [current, stack]
    exact h.distinct
  · rw [current, stack]
    exact h.cells

theorem jump (h : m.Shows u ip vs w) (address : Nat) :
    (m.modifyCurrent (·.modifyFrame ({ · with ip := address }))).Shows u address vs w := by
  refine h.turn _ ?_ ?_ ?_ <;> simp [Thread.modifyFrame, h.frames]

theorem advance (h : m.Shows u ip vs w) : m.advance.Shows u (ip + 1) vs w := by
  refine h.turn _ ?_ ?_ ?_ <;> simp [Thread.modifyFrame, h.frames]

theorem captures (h : m.Shows u ip vs w) (f : Thread → Array Nat) :
    (m.modifyCurrent fun t => { t with captures := f t }).Shows u ip vs w :=
  h.turn _ rfl rfl h.frames

theorem push (h : m.Shows u ip vs w) (v : Value) : (m.push v).Shows u ip (vs ++ [v]) w := by
  have current : (m.push v).current =
      { m.current with stack := m.current.stack.push m.store.cells.size } :=
    current_modifyCurrent (f := fun t => { t with stack := t.stack.push m.store.cells.size }) h.inside
  have old : ∀ c ∈ m.current.stack.toList, (m.push v).store.cell c = m.store.cell c := by
    intro c mem
    have := h.cells c mem
    simp only [Store.cell, Machine.push, pushOn, Store.newCell]
    rw [Array.getElem?_push_lt this, Array.getElem?_eq_getElem this]
  refine ⟨h.running, h.waiting, ?_, ?_, ?_, ?_, ?_, ?_, h.globals, h.tables, h.bare⟩
  · simpa [Machine.push, pushOn] using h.inside
  · rw [current]
    exact h.frames
  · rw [current]
    exact h.handlers
  · rw [current]
    simp only [Array.toList_push, List.map_append, List.map_cons, List.map_nil]
    rw [List.map_congr_left old, h.values]
    simp [Store.cell, Machine.push, pushOn, Store.newCell]
  · rw [current]
    simp only [Array.toList_push, List.nodup_append, List.nodup_cons, List.not_mem_nil,
      not_false_eq_true, List.nodup_nil, and_self, List.mem_singleton, true_and]
    refine ⟨h.distinct, fun c mem d same => ?_⟩
    have := h.cells c mem
    omega
  · rw [current]
    intro c mem
    simp only [Array.toList_push, List.mem_append, List.mem_singleton] at mem
    simp only [Machine.push, pushOn, Store.newCell, Array.size_push]
    rcases mem with mem | rfl
    · have := h.cells c mem
      omega
    · omega

theorem drop {xs : List Value} (h : m.Shows u ip (vs ++ xs) w) {n : Nat} (count : n = xs.length) :
    (m.drop n).Shows u ip vs w := by
  have current := current_drop h.inside n
  have size := h.size
  have kept : (m.drop n).current.stack.toList = m.current.stack.toList.take vs.length := by
    rw [current]
    simp only [Array.toList_extract, List.extract_eq_take_drop, Nat.sub_zero, List.drop_zero, size,
      List.length_append]
    congr 1
    omega
  refine ⟨h.running, h.waiting, by simpa [Machine.drop] using h.inside, ?_, ?_, ?_, ?_, ?_,
    h.globals, h.tables, h.bare⟩
  · rw [current]
    exact h.frames
  · rw [current]
    exact h.handlers
  · rw [kept, List.map_take, store_drop, h.values, List.take_left]
  · rw [kept]
    exact h.distinct.sublist (List.take_sublist ..)
  · rw [kept]
    exact fun c mem => h.cells c (List.mem_of_mem_take mem)

/-- Other globals and tables. -/
theorem world (h : m.Shows u ip vs w) {m' : Machine} {w' : World} (bare : w'.Bare)
    (threads : m'.threads = m.threads) (running : m'.running = m.running)
    (waiting : m'.waiting = m.waiting) (cells : m'.store.cells = m.store.cells)
    (globals : m'.globals = w'.globals) (tables : m'.store.tables = w'.tables) :
    m'.Shows u ip vs w' := by
  have current : m'.current = m.current := by
    simp only [Machine.current, thread, threads, running]
  have cell : m'.store.cell = m.store.cell := by
    funext c
    simp only [Store.cell, cells]
  refine ⟨by rw [running, h.running], by rw [waiting, h.waiting], by rw [running, threads]; exact h.inside,
    by rw [current, h.frames], by rw [current, h.handlers], by rw [current, cell, h.values],
    by rw [current]; exact h.distinct, by rw [current, cells]; exact h.cells, globals, tables, bare⟩

/-! ## Reading and writing slots -/

/-- The cell `offset` slots below the top. -/
theorem cell (h : m.Shows u ip vs w) (offset : Nat) (low : 1 ≤ offset) (high : offset ≤ vs.length) :
    ∃ c, m.current.cell? offset = some c ∧ m.current.stack.toList[vs.length - offset]? = some c ∧
      vs[vs.length - offset]? = some (m.store.cell c) := by
  have size := h.size
  obtain ⟨c, found⟩ : ∃ c, m.current.stack.toList[vs.length - offset]? = some c := by
    refine ⟨_, List.getElem?_eq_getElem ?_⟩
    simp only [Array.length_toList]
    omega
  refine ⟨c, ?_, found, ?_⟩
  · rw [Thread.cell?, if_pos (by omega), ← Array.getElem?_toList, size, found]
  · conv => lhs; rw [← h.values]
    rw [List.getElem?_map, h.values, found]
    rfl

theorem top (h : m.Shows u ip vs w) {offset : Nat} (low : 1 ≤ offset) (high : offset ≤ vs.length) :
    vs[vs.length - offset]? = some (m.top offset) := by
  obtain ⟨c, found, -, value⟩ := h.cell offset low high
  rw [value, Machine.top, found]
  rfl

theorem top_above {xs : List Value} (h : m.Shows u ip (vs ++ xs) w) (offset : Nat) (low : 1 ≤ offset)
    (high : offset ≤ xs.length) : xs[xs.length - offset]? = some (m.top offset) := by
  rw [← h.top low (by simp only [List.length_append]; omega)]
  rw [List.getElem?_append_right (by simp only [List.length_append]; omega)]
  congr 1
  simp only [List.length_append]
  omega

theorem top_one {v : Value} (h : m.Shows u ip (vs ++ [v]) w) : m.top 1 = v := by
  have value := h.top_above 1 (Nat.le_refl 1) (Nat.le_refl 1)
  simpa using value.symm

theorem top_two {v v' : Value} (h : m.Shows u ip (vs ++ [v, v']) w) : m.top 2 = v ∧ m.top 1 = v' := by
  have first := h.top_above 2 (by omega) (by simp)
  have second := h.top_above 1 (by omega) (by simp)
  exact ⟨by simpa using first.symm, by simpa using second.symm⟩

theorem top_three {v v' v'' : Value} (h : m.Shows u ip (vs ++ [v, v', v'']) w) :
    m.top 3 = v ∧ m.top 2 = v' ∧ m.top 1 = v'' := by
  have first := h.top_above 3 (by omega) (by simp)
  have second := h.top_above 2 (by omega) (by simp)
  have third := h.top_above 1 (by omega) (by simp)
  exact ⟨by simpa using first.symm, by simpa using second.symm, by simpa using third.symm⟩

theorem spread {xs : List Value} (h : m.Shows u ip (vs ++ xs) w) :
    m.spread xs.length = xs.flatMap Value.spread := by
  have size := h.size
  have top : (m.current.stack.extract (m.current.stack.size - xs.length)
      m.current.stack.size).toList = m.current.stack.toList.drop vs.length := by
    simp only [Array.toList_extract, List.extract_eq_take_drop, size, List.length_append]
    rw [show vs.length + xs.length - xs.length = vs.length by omega]
    apply List.take_of_length_le
    simp only [List.length_drop, Array.length_toList, size, List.length_append]
    omega
  have same : xs = (m.current.stack.toList.drop vs.length).map m.store.cell := by
    rw [List.map_drop, h.values, List.drop_left]
  rw [Machine.spread, top]
  conv => rhs; rw [same, List.flatMap_map]

/-- Writing into one cell of a list without repetitions changes one value. -/
theorem map_set_of_nodup {cells : List Nat} (distinct : cells.Nodup) {f g : Nat → Value} {c i : Nat}
    (found : cells[i]? = some c) (other : ∀ d ∈ cells, d ≠ c → g d = f d) :
    cells.map g = (cells.map f).set i (g c) := by
  obtain ⟨inside, here⟩ := List.getElem?_eq_some_iff.1 found
  apply List.ext_getElem
  · simp
  · intro j bound _
    simp only [List.length_map] at bound
    simp only [List.getElem_map, List.getElem_set]
    split
    · rename_i same
      subst same
      rw [here]
    · rename_i differ
      refine other _ (List.getElem_mem bound) fun same => differ ?_
      exact (List.getElem_inj distinct).1 (here.trans same.symm)

theorem setCell (h : m.Shows u ip vs w) {c i : Nat}
    (found : m.current.stack.toList[i]? = some c) (v : Value) :
    ({ m with store := m.store.setCell c v } : Machine).Shows u ip (vs.set i v) w := by
  have inside := h.cells c (List.mem_of_getElem? found)
  refine ⟨h.running, h.waiting, h.inside, h.frames, h.handlers, ?_, h.distinct, ?_, h.globals,
    h.tables, h.bare⟩
  · have new : (m.store.setCell c v).cell c = v := by
      simp [Store.cell, Store.setCell, inside]
    show m.current.stack.toList.map (m.store.setCell c v).cell = _
    rw [map_set_of_nodup h.distinct (f := m.store.cell) found, h.values, new]
    intro d _ differ
    simp [Store.cell, Store.setCell, Ne.symm differ]
  · intro d mem
    have := h.cells d mem
    simpa [Store.setCell] using this

/-! ## Metatables -/

theorem metamethod (h : m.Shows u ip vs w) (v : Value) (event : String) :
    m.metamethod v event = .ok .nil := by
  have none' : m.store.metatable? v = none := by
    cases v with
    | table id =>
      simp only [Store.metatable?, Store.table, h.tables]
      cases found : w.tables[id]? with
      | none => rfl
      | some t => exact h.bare t (Array.mem_of_getElem? found)
    | _ => rfl
  rw [Machine.metamethod, none']

theorem callMetamethod (h : m.Shows u ip vs w) (event : String) (lhs rhs : Value) (fault : Fault) :
    Exec.callMetamethod event lhs rhs fault m = .error fault m := by
  simp only [Exec.callMetamethod, Exec.bind_apply, Exec.get_apply, h.metamethod, Exec.ofExcept_ok]
  rfl

theorem lookup (h : m.Shows u ip vs w) (id : Nat) (key : Value) (limit : Nat) :
    m.store.lookup id key limit = .ok ((w.table id).get key) := by
  have same : m.store.table id = w.table id := by
    simp only [Store.table, h.tables, World.table]
  have none' : (w.table id).metatable = none := by
    rw [World.table]
    cases found : w.tables[id]? with
    | none => rfl
    | some t => exact h.bare t (Array.mem_of_getElem? found)
  rw [Store.lookup, Store.chainValue?, same, none']
  cases empty : ((w.table id).get key).isNil with
  | true =>
    cases value : (w.table id).get key <;> simp [value, Value.isNil] at empty ⊢
  | false => rfl

end Shows

end Machine

/-! ## Outcomes of evaluations -/

namespace Evaluation

variable {α β : Type} (w : World)

@[simp] theorem outcome_pure (a : α) : (pure a : Evaluation α).outcome w = some (.ok a, w) := rfl

@[simp] theorem outcome_throw (fault : Fault) :
    (throw fault : Evaluation α).outcome w = some (.error fault, w) := rfl

@[simp] theorem outcome_endless : (endless : Evaluation α).outcome w = none := rfl

@[simp] theorem outcome_get : (get : Evaluation World).outcome w = some (.ok w, w) := rfl

@[simp] theorem outcome_set (w' : World) :
    (set w' : Evaluation PUnit).outcome w = some (.ok ⟨⟩, w') := rfl

@[simp] theorem outcome_modify (f : World → World) :
    (modify f : Evaluation PUnit).outcome w = some (.ok ⟨⟩, f w) := rfl

@[simp] theorem outcome_bind (x : Evaluation α) (f : α → Evaluation β) :
    (x >>= f).outcome w = match x.outcome w with
      | none => none
      | some (.ok a, w') => (f a).outcome w'
      | some (.error fault, w') => some (.error fault, w') := by
  show (x w >>= fun r => (ExceptT.bindCont f r.1) r.2) = _
  show (x w >>= fun r => (ExceptT.bindCont f r.1) r.2) = match x w with
    | none => none
    | some (.ok a, w') => f a w'
    | some (.error fault, w') => some (.error fault, w')
  cases x w with
  | none => rfl
  | some r =>
    obtain ⟨r, w'⟩ := r
    cases r <;> rfl

end Evaluation

/-! ## Operators -/

/-- A result of an evaluation, as that of an action. -/
def Exec.ended {α : Type} (r : Except Fault α) (m : Machine) : EStateM.Result Fault Machine α :=
  match r with
  | .ok a => .ok a m
  | .error fault => .error fault m

/-- The action does what the evaluation does by itself, and puts `f` of its value in the place of the
topmost values `xs`. -/
def Exec.Implements {α : Type} (action : Exec Unit) (xs : List Value) (x : Evaluation α)
    (f : α → List Value) : Prop :=
  ∀ ⦃m : Machine⦄ ⦃u ip vs w⦄, m.Shows u ip (vs ++ xs) w → ∀ r w', x.outcome w = some (r, w') →
    w'.memory = w.memory ∧ ∃ (m' : Machine) (vs' : List Value), m'.Shows u ip vs' w' ∧
      action m = ended (r.map fun _ => ()) m' ∧ ∀ a, r = .ok a → vs' = vs ++ f a

namespace Exec

open Machine

theorem arithmetic_implements (op : Arithmetic) (lhs rhs : Value) :
    Implements (arithmetic op) [lhs, rhs] (Evaluation.arithmetic op lhs rhs) ([·]) := by
  intro m u ip vs w h r w' ran
  obtain ⟨left, right⟩ := h.top_two
  have below := h.drop (n := 2) rfl
  have failed := below.callMetamethod op.event lhs rhs
  rw [arithmetic_apply h.inside, left, right]
  cases l : lhs.number? with
  | none =>
    simp only [Evaluation.arithmetic, l] at ran
    cases ran
    exact ⟨rfl, _, _, below, failed _, by rintro _ ⟨⟩⟩
  | some x =>
    cases k : rhs.number? with
    | none =>
      simp only [Evaluation.arithmetic, l, k] at ran
      cases ran
      exact ⟨rfl, _, _, below, failed _, by rintro _ ⟨⟩⟩
    | some y =>
      simp only [Evaluation.arithmetic, l, k] at ran
      cases ran
      exact ⟨rfl, _, _, below.push _, rfl, by rintro _ ⟨⟩; rfl⟩

theorem negate_implements (v : Value) : Implements negate [v] (Evaluation.negate v) ([·]) := by
  intro m u ip vs w h r w' ran
  have below := h.drop (n := 1) rfl
  rw [negate_apply, h.top_one]
  cases number : v.number? with
  | none =>
    simp only [Evaluation.negate, number] at ran
    cases ran
    exact ⟨rfl, _, _, below, below.callMetamethod .., by rintro _ ⟨⟩⟩
  | some x =>
    simp only [Evaluation.negate, number] at ran
    cases ran
    exact ⟨rfl, _, _, below.push _, rfl, by rintro _ ⟨⟩; rfl⟩

theorem concat_implements (lhs rhs : Value) :
    Implements concat [lhs, rhs] (Evaluation.concat lhs rhs) ([·]) := by
  intro m u ip vs w h r w' ran
  obtain ⟨left, right⟩ := h.top_two
  have below := h.drop (n := 2) rfl
  have failed := below.callMetamethod "__concat" lhs rhs
  rw [concat_apply h.inside, left, right, Value.concat?]
  cases l : lhs.piece? with
  | none =>
    simp only [Evaluation.concat, l] at ran
    cases ran
    exact ⟨rfl, _, _, below, failed _, by rintro _ ⟨⟩⟩
  | some x =>
    cases k : rhs.piece? with
    | none =>
      simp only [Evaluation.concat, l, k] at ran
      cases ran
      exact ⟨rfl, _, _, below, failed _, by rintro _ ⟨⟩⟩
    | some y =>
      simp only [Evaluation.concat, l, k] at ran
      cases ran
      exact ⟨rfl, _, _, below.push _, rfl, by rintro _ ⟨⟩; rfl⟩

theorem length_implements (v : Value) : Implements length [v] (Evaluation.length v) ([·]) := by
  intro m u ip vs w h r w' ran
  have below := h.drop (n := 1) rfl
  rw [length_apply, h.metamethod, h.top_one]
  simp only [Value.isNil, if_true]
  have same (id : Nat) : m.store.table id = w.table id := by
    simp only [Store.table, h.tables, World.table]
  cases v with
  | string s =>
    cases ran
    exact ⟨rfl, _, _, below.push _, rfl, by rintro _ ⟨⟩; rfl⟩
  | table id =>
    cases ran
    refine ⟨rfl, _, _, below.push _, rfl, ?_⟩
    rintro _ ⟨⟩
    rw [same]
  | _ =>
    cases ran
    exact ⟨rfl, _, _, below, rfl, by rintro _ ⟨⟩⟩

theorem compare_implements (test : Value → Value → Option Bool) (event : String) (lhs rhs : Value) :
    Implements (compare test event) [lhs, rhs] (Evaluation.compare test lhs rhs) ([·]) := by
  intro m u ip vs w h r w' ran
  obtain ⟨left, right⟩ := h.top_two
  have below := h.drop (n := 2) rfl
  rw [compare, pop_pop h.inside, left, right]
  cases decided : test lhs rhs with
  | none =>
    simp only [Evaluation.compare, decided] at ran
    cases ran
    refine ⟨rfl, _, _, below, ?_, by rintro _ ⟨⟩⟩
    simp only [bind_apply, get_apply, below.callMetamethod]
    rfl
  | some result =>
    simp only [Evaluation.compare, decided] at ran
    cases ran
    exact ⟨rfl, _, _, below.push _, rfl, by rintro _ ⟨⟩; rfl⟩

/-! ## Tables -/

end Exec

namespace Table

variable (t : Table) (key : Key) (keyValue value : Value)

@[simp] theorem metatable_putSlot : (t.putSlot key keyValue value).metatable = t.metatable := by
  unfold putSlot
  cases t.index[key]? <;> rfl

@[simp] theorem metatable_unlink : (t.unlink key).2.metatable = t.metatable := by
  unfold unlink
  cases t.index[key]? <;> rfl

@[simp] theorem metatable_migrate : t.migrate.metatable = t.metatable := by
  fun_induction migrate t with
  | case1 t taken empty => exact metatable_unlink t _
  | case2 t taken filled _ ih =>
    rw [ih]
    exact metatable_unlink t _

@[simp] theorem metatable_assignSlot :
    (assign.assignSlot key keyValue value t).metatable = t.metatable := by
  unfold assign.assignSlot
  split
  · simp
  · split
    · rfl
    · split <;> simp [compact]

/-- Writing into a table leaves its metatable alone. -/
theorem metatable_assign : (t.assign key keyValue value).metatable = t.metatable := by
  unfold assign
  split
  · split
    · rfl
    · split <;> simp
  · simp

end Table

namespace Exec

open Machine

theorem newTable_implements (c : Closure) (a b : Nat) :
    Implements (perform c .newTable a b) [] Evaluation.newTable ([.table ·]) := by
  intro m u ip vs w h r w' ran
  cases ran
  rw [List.append_nil] at h
  have bare : ({ w with tables := w.tables.push {} } : World).Bare := by
    intro t mem
    rcases Array.mem_push.1 mem with mem | rfl
    · exact h.bare t mem
    · rfl
  have tables : m.store.newTable.2.tables = w.tables.push {} := by
    rw [← h.tables]
    rfl
  have shown : ({ m with store := m.store.newTable.2 } : Machine).Shows u ip vs
      { w with tables := w.tables.push {} } := h.world bare rfl rfl rfl rfl h.globals tables
  refine ⟨rfl, _, _, shown.push (.table m.store.tables.size), rfl, ?_⟩
  rintro _ ⟨⟩
  rw [h.tables]

theorem index_implements (c : Closure) (a b : Nat) (target key : Value) :
    Implements (perform c .getTable a b) [target, key] (Evaluation.index target key) ([·]) := by
  intro m u ip vs w h r w' ran
  obtain ⟨left, right⟩ := h.top_two
  have below := h.drop (n := 2) rfl
  have found (id : Nat) : ofExcept ((m.drop 2).store.lookup id key (m.drop 2).config.maxChainDepth)
      (m.drop 2) = .ok ((w.table id).get key) (m.drop 2) := by
    rw [below.lookup]
    rfl
  have global : (m.drop 2).global "string" = w.global "string" := by
    rw [Machine.global, World.global, below.globals]
  have action : perform c .getTable a b m = (do let v ← index target key; push v) (m.drop 2) := by
    rw [← left, ← right]
    exact pop_pop h.inside (fun target key => do let v ← index target key; push v)
  rw [action]
  simp only [bind_apply, index, get_apply]
  cases target with
  | table id =>
    cases ran
    refine ⟨rfl, _, _, below.push _, ?_, by rintro _ ⟨⟩; rfl⟩
    simp only [found]
    rfl
  | string s =>
    simp only [Evaluation.index, Evaluation.outcome_bind, Evaluation.outcome_get] at ran
    simp only [global]
    cases global' : w.global "string" with
    | table id =>
      rw [global'] at ran
      cases ran
      refine ⟨rfl, _, _, below.push _, ?_, by rintro _ ⟨⟩; rfl⟩
      simp only [found]
      rfl
    | _ =>
      rw [global'] at ran
      cases ran
      exact ⟨rfl, _, _, below, rfl, by rintro _ ⟨⟩⟩
  | _ =>
    cases ran
    exact ⟨rfl, _, _, below, rfl, by rintro _ ⟨⟩⟩

theorem write_shows {m : Machine} {u : CodeUnit} {ip : Nat} {vs : List Value} {w w' : World}
    {r : Except Fault Unit} (h : m.Shows u ip vs w) (id : Nat) (key value : Value)
    (ran : (Evaluation.put id key value).outcome w = some (r, w')) :
    w'.memory = w.memory ∧ ∃ m' : Machine, m'.Shows u ip vs w' ∧
      write id key value m = ended r m' := by
  simp only [Evaluation.put] at ran
  cases valid : Key.ofValue key with
  | error fault =>
    rw [valid] at ran
    cases ran
    refine ⟨rfl, m, h, ?_⟩
    rw [write, onStore_apply, HostAction.write, valid]
    rfl
  | ok k =>
    rw [valid] at ran
    cases ran
    refine ⟨rfl, { m with store := m.store.assign id k key value }, ?_, ?_⟩
    · refine h.world ?_ rfl rfl rfl rfl h.globals ?_
      · intro t mem
        obtain ⟨i, inside, found⟩ := Array.mem_iff_getElem.1 mem
        simp only [Array.getElem_modify] at found
        have old := h.bare _ (Array.getElem_mem (by simpa using inside))
        split at found
        · rw [← found, Table.metatable_assign, old]
        · rw [← found, old]
      · simp only [Store.assign, h.tables]
    · rw [write, onStore_apply, HostAction.write, valid]
      rfl

theorem writeFrom_shows {u : CodeUnit} {ip : Nat} {vs : List Value} {r : Except Fault Unit} (id : Nat)
    (start : Float) (values : List Value) {m : Machine} {w w' : World} (h : m.Shows u ip vs w)
    (offset : Nat) (ran : (Evaluation.putFrom id start offset values).outcome w = some (r, w')) :
    w'.memory = w.memory ∧ ∃ m' : Machine, m'.Shows u ip vs w' ∧
      writeFrom id start offset values m = ended r m' := by
  induction values generalizing m w offset with
  | nil =>
    cases ran
    exact ⟨rfl, m, h, rfl⟩
  | cons v rest ih =>
    simp only [Evaluation.putFrom, Evaluation.outcome_bind] at ran
    cases first : (Evaluation.put id (.number (start + Float.ofNat offset)) v).outcome w with
    | none =>
      rw [first] at ran
      cases ran
    | some s =>
      obtain ⟨s, w₁⟩ := s
      obtain ⟨same, m₁, shown, wrote⟩ := write_shows h id _ v first
      rw [first] at ran
      cases s with
      | error fault =>
        cases ran
        refine ⟨same, m₁, shown, ?_⟩
        simp only [writeFrom, bind_apply, wrote, ended]
      | ok a =>
        obtain ⟨same', m₂, shown', wrote'⟩ := ih shown (offset + 1) ran
        refine ⟨same'.trans same, m₂, shown', ?_⟩
        simp only [writeFrom, bind_apply, wrote, ended]
        exact wrote'

/-- Stores a value into a table, all of them popped already. -/
def storeInto (target key value : Value) : Exec Unit :=
  match target with
  | .table id =>
    match key, value with
    | .number start, .multi vs => writeFrom id start 0 vs
    | _, _ => write id key value.first
  | _ => throw (.index target.typeName)

theorem putTable_apply {m : Machine} (h : m.running < m.threads.size) :
    putTable m = storeInto (m.top 3) (m.top 2) (m.top 1) (m.drop 3) := by
  simp only [putTable, bind_apply, pop_apply, top_drop h, drop_drop]
  cases m.top 3 <;> rfl

theorem storeInto_shows {m : Machine} {u : CodeUnit} {ip : Nat} {vs : List Value} {w w' : World}
    {r : Except Fault Unit} (h : m.Shows u ip vs w) (target key value : Value)
    (ran : (Evaluation.store target key value).outcome w = some (r, w')) :
    w'.memory = w.memory ∧ ∃ m' : Machine, m'.Shows u ip vs w' ∧
      storeInto target key value m = ended r m' := by
  cases target with
  | table id =>
    cases key with
    | number start =>
      cases value with
      | multi values => exact writeFrom_shows id start values h 0 ran
      | _ => exact write_shows h id _ _ ran
    | _ => exact write_shows h id _ _ ran
  | _ =>
    cases ran
    exact ⟨rfl, m, h, rfl⟩

theorem putTable_implements (target key value : Value) :
    Implements putTable [target, key, value] (Evaluation.store target key value) (fun _ => []) := by
  intro m u ip vs w h r w' ran
  obtain ⟨first, second, third⟩ := h.top_three
  obtain ⟨same, m', shown, stored⟩ := storeInto_shows (h.drop (n := 3) rfl) target key value ran
  refine ⟨same, m', vs, shown, ?_, fun _ _ => (List.append_nil vs).symm⟩
  rw [putTable_apply h.inside, first, second, third, stored]
  cases r <;> rfl

/-! ## Instructions -/

/-- Two operands give way to a value that depends on nothing else. -/
theorem pure_implements (f : Value → Value → Value) (lhs rhs : Value) :
    Implements (do let rhs ← pop; let lhs ← pop; push (f lhs rhs)) [lhs, rhs] (pure (f lhs rhs))
      ([·]) := by
  intro m u ip vs w h r w' ran
  obtain ⟨left, right⟩ := h.top_two
  cases ran
  refine ⟨rfl, _, _, (h.drop (n := 2) rfl).push _, ?_, by rintro _ ⟨⟩; rfl⟩
  rw [pop_pop h.inside fun lhs rhs => push (f lhs rhs), left, right]
  rfl

theorem not_implements (c : Closure) (a b : Nat) (v : Value) :
    Implements (perform c .not a b) [v] (pure (.boolean !v.isTruthy)) ([·]) := by
  intro m u ip vs w h r w' ran
  cases ran
  refine ⟨rfl, _, _, (h.drop (n := 1) rfl).push _, ?_, by rintro _ ⟨⟩; rfl⟩
  simp only [perform, bind_apply, pop_apply, h.top_one]
  rfl

theorem unary_implements (c : Closure) (op : UnaryOp) (a b : Nat) (v : Value) :
    Implements (perform c (Compiler.unaryOpcode op) a b) [v] (Evaluation.unary op v) ([·]) := by
  cases op with
  | neg => exact negate_implements v
  | not => exact not_implements c a b v
  | len => exact length_implements v

end Exec

/-- The operator that an operator's instruction computes: those whose result is negated share the
instruction of another one. -/
def BinaryOp.positive : BinaryOp → BinaryOp
  | .notEq => .eq
  | .gt => .ltEq
  | .gtEq => .lt
  | op => op

@[simp] theorem Value.isTruthy_boolean (b : Bool) : (Value.boolean b).isTruthy = b := by
  cases b <;> rfl

theorem Evaluation.binary_eq (op : BinaryOp) (lhs rhs : Value) :
    binary op lhs rhs = (do
      let v ← binary op.positive lhs rhs
      if (Compiler.binaryOpcode op).2 then pure (.boolean !v.isTruthy) else pure v) := by
  cases op with
  | notEq => simp [binary, BinaryOp.positive, Compiler.binaryOpcode]
  | gt => rfl
  | gtEq => rfl
  | _ => exact (bind_pure _).symm

namespace Exec

theorem binary_implements (c : Closure) (op : BinaryOp) (a b : Nat) (lhs rhs : Value) :
    Implements (perform c (Compiler.binaryOpcode op).1 a b) [lhs, rhs]
      (Evaluation.binary op.positive lhs rhs) ([·]) := by
  cases op with
  | add | sub | mul | div | mod | pow => exact arithmetic_implements _ lhs rhs
  | concat => exact concat_implements lhs rhs
  | eq | notEq => exact pure_implements (fun lhs rhs => .boolean (lhs == rhs)) lhs rhs
  | lt | gtEq => exact compare_implements Value.less? "__lt" lhs rhs
  | ltEq | gt => exact compare_implements Value.lessEq? "__le" lhs rhs
  | and => exact pure_implements (fun lhs rhs => if lhs.isTruthy then rhs else lhs) lhs rhs
  | or => exact pure_implements (fun lhs rhs => if lhs.isTruthy then lhs else rhs) lhs rhs

/-- One control value of a numeric loop becomes a number. -/
theorem forControl_shows {m : Machine} {u : CodeUnit} {ip : Nat} {vs : List Value} {w w' : World}
    (h : m.Shows u ip vs w) (offset : Nat) {v : Value} (low : 1 ≤ offset) (high : offset ≤ vs.length)
    (found : vs[vs.length - offset]? = some v) (message : String) {r : Except Fault Float}
    (ran : (Evaluation.control v message).outcome w = some (r, w')) :
    w' = w ∧ ∃ (m' : Machine) (vs' : List Value), m'.Shows u ip vs' w ∧
      forControl offset message m = ended (r.map fun _ => ()) m' ∧
      ∀ n, r = .ok n → vs' = vs.set (vs.length - offset) (.number n) := by
  obtain ⟨c, cell, place, value⟩ := h.cell offset low high
  rw [found] at value
  cases value
  unfold Evaluation.control at ran
  simp only [forControl, bind_apply, slot_apply cell, get_apply]
  cases number : (m.store.cell c).coerce? with
  | none =>
    rw [number] at ran
    cases ran
    exact ⟨rfl, m, vs, h, rfl, by rintro _ ⟨⟩⟩
  | some n =>
    rw [number] at ran
    cases ran
    exact ⟨rfl, _, _, h.setCell place _, rfl, by rintro _ ⟨⟩; rfl⟩

/-- An evaluation of a control value ends and leaves the world alone. -/
theorem outcome_control (v : Value) (message : String) (w : World) :
    ∃ r, (Evaluation.control v message).outcome w = some (r, w) := by
  unfold Evaluation.control
  cases v.coerce? with
  | none => exact ⟨_, rfl⟩
  | some n => exact ⟨_, rfl⟩

theorem forPrep_implements (start limit step : Value) :
    Implements forPrep [start, limit, step] (Evaluation.prepare start limit step)
      fun r => [.number r.1, .number r.2.1, .number r.2.2] := by
  intro m u ip vs w h r w' ran
  simp only [Evaluation.prepare, Evaluation.outcome_bind] at ran
  simp only [forPrep, bind_apply]
  obtain ⟨r₁, first⟩ := outcome_control start "initial value must be a number" w
  obtain ⟨-, m₁, vs₁, shown₁, did₁, same₁⟩ := forControl_shows h 3 (v := start) (by omega)
    (by simp) (by simp) _ first
  rw [first] at ran
  rw [did₁]
  cases r₁ with
  | error fault =>
    cases ran
    exact ⟨rfl, m₁, vs₁, shown₁, rfl, by rintro _ ⟨⟩⟩
  | ok x =>
  obtain rfl : vs₁ = vs ++ [Value.number x, limit, step] := by simpa using same₁ x rfl
  obtain ⟨r₂, second⟩ := outcome_control limit "limit must be a number" w
  obtain ⟨-, m₂, vs₂, shown₂, did₂, same₂⟩ := forControl_shows shown₁ 2 (v := limit)
    (by omega) (by simp) (by simp) _ second
  simp only [second] at ran
  simp only [Except.map, ended, did₂]
  cases r₂ with
  | error fault =>
    cases ran
    exact ⟨rfl, m₂, vs₂, shown₂, rfl, by rintro _ ⟨⟩⟩
  | ok y =>
  obtain rfl : vs₂ = vs ++ [Value.number x, .number y, step] := by simpa using same₂ y rfl
  obtain ⟨r₃, third⟩ := outcome_control step "step must be a number" w
  obtain ⟨-, m₃, vs₃, shown₃, did₃, same₃⟩ := forControl_shows shown₂ 1 (v := step)
    (by omega) (by simp) (by simp) _ third
  simp only [third] at ran
  simp only [did₃]
  cases r₃ with
  | error fault =>
    cases ran
    exact ⟨rfl, m₃, vs₃, shown₃, rfl, by rintro _ ⟨⟩⟩
  | ok z =>
  obtain rfl : vs₃ = vs ++ [Value.number x, .number y, .number z] := by simpa using same₃ z rfl
  obtain ⟨c, cell, -, value⟩ := shown₃.cell 1 (Nat.le_refl 1) (by simp)
  have last : m₃.store.cell c = .number z := by simpa using value.symm
  have test : (Value.number z == Value.number 0.0) = (z == 0.0) := rfl
  simp only [Except.map, ended, peek_apply cell, last, test]
  by_cases zero : (z == 0.0) = true
  · simp only [zero, if_true] at ran
    cases ran
    refine ⟨rfl, m₃, _, shown₃, ?_, by rintro _ ⟨⟩⟩
    simp only [zero, if_true]
    rfl
  · simp only [zero] at ran
    cases ran
    refine ⟨rfl, m₃, _, shown₃, ?_, by rintro _ ⟨⟩; rfl⟩
    simp only [zero]
    rfl

end Exec

end ScriptEngine
