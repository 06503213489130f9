import ScriptEngine.Machine.Run
import ScriptEngine.Proofs.Evaluation.Picture

/-!
# How a running chunk ends

The slots of a chunk's stack hold temporaries and the variables of the program. `Ends` says how a
machine ends that is at some address with given slots in a given world. Its rules go backwards: each
instruction has one that takes the ending from the state after it to the state before it.
-/

set_option linter.dupNamespace false

namespace ScriptEngine

/-- What a stack slot holds. -/
inductive Item where
  | temporary (v : Value)
  /-- The variable at an address. -/
  | named (address : Nat)

namespace Item

def value (w : World) : Item → Value
  | temporary v => v
  | named address => w.contents address

def address? : Item → Option Nat
  | temporary _ => none
  | named address => some address

end Item

/-- The values that slots hold. -/
def World.values (w : World) (items : List Item) : List Value := items.map (·.value w)

/-- Slots with temporaries. -/
def temps (vs : List Value) : List Item := vs.map .temporary

@[simp] theorem length_temps (vs : List Value) : (temps vs).length = vs.length := List.length_map ..

theorem World.values_append (w : World) (items items' : List Item) :
    w.values (items ++ items') = w.values items ++ w.values items' := List.map_append

theorem World.values_temps (w : World) (vs : List Value) : w.values (temps vs) = vs := by
  simp [values, temps, Item.value, Function.comp_def]

/-- What slots hold depends on the variables alone. -/
theorem World.values_congr {w w' : World} (same : w'.memory = w.memory) (items : List Item) :
    w'.values items = w.values items := by
  apply List.map_congr_left
  rintro (v | a) -
  · rfl
  · simp only [Item.value, World.contents, same]

/-- Different slots hold different variables, and all of these have been declared. -/
structure World.Tracks (w : World) (items : List Item) : Prop where
  distinct : (items.filterMap Item.address?).Nodup
  declared : ∀ a ∈ items.filterMap Item.address?, a < w.memory.size

theorem World.Tracks.congr {w w' : World} {items : List Item} (h : w.Tracks items)
    (same : w'.memory = w.memory) : w'.Tracks items :=
  ⟨h.distinct, by rw [same]; exact h.declared⟩

/-- Temporaries need no tracking. -/
theorem World.tracks_temps {w : World} {items : List Item} {vs : List Value} :
    w.Tracks (items ++ temps vs) ↔ w.Tracks items := by
  have nothing : (items ++ temps vs).filterMap Item.address? = items.filterMap Item.address? := by
    simp [temps, List.filterMap_map, Function.comp_def, Item.address?]
  constructor
  · rintro ⟨distinct, declared⟩
    rw [nothing] at distinct declared
    exact ⟨distinct, declared⟩
  · rintro ⟨distinct, declared⟩
    constructor <;> rw [nothing] <;> assumption

/-- A variable is in one slot only. -/
theorem World.Tracks.unique {w : World} {items : List Item} (h : w.Tracks items) {i j a : Nat}
    (here : items[i]? = some (.named a)) (there : items[j]? = some (.named a)) : i = j := by
  have apart := List.pairwise_iff_getElem.1 (List.pairwise_filterMap.1 h.distinct)
  obtain ⟨inside, here⟩ := List.getElem?_eq_some_iff.1 here
  obtain ⟨inside', there⟩ := List.getElem?_eq_some_iff.1 there
  rcases Nat.lt_trichotomy i j with less | same | more
  · exact absurd rfl (apart i j inside inside' less a (by rw [here]; rfl) a (by rw [there]; rfl))
  · exact same
  · exact absurd rfl (apart j i inside' inside more a (by rw [there]; rfl) a (by rw [here]; rfl))

theorem World.values_setContents {w : World} {items : List Item} (h : w.Tracks items) {i a : Nat}
    (here : items[i]? = some (.named a)) (v : Value) :
    (w.setContents a v).values items = (w.values items).set i v := by
  have declared := h.declared a (List.mem_filterMap.2 ⟨_, List.mem_of_getElem? here, rfl⟩)
  apply List.ext_getElem?
  intro j
  simp only [World.values, List.getElem?_map, List.getElem?_set, List.length_map]
  split
  · rename_i same
    subst same
    rw [if_pos (List.getElem?_eq_some_iff.1 here).1, here]
    simp [Item.value, World.contents, World.setContents, declared]
  · rename_i differ
    cases found : items[j]? with
    | none => rfl
    | some item =>
      cases item with
      | temporary v => rfl
      | named c =>
        have other : a ≠ c := by
          rintro rfl
          exact differ (h.unique here found)
        simp [Item.value, World.contents, World.setContents, other]

/-- One temporary instead of another. -/
theorem World.Tracks.set {w : World} {items : List Item} (h : w.Tracks items) {i : Nat} {v v' : Value}
    (here : items[i]? = some (.temporary v')) : w.Tracks (items.set i (.temporary v)) := by
  have same : (items.set i (.temporary v)).filterMap Item.address? =
      items.filterMap Item.address? := by
    clear h
    induction items generalizing i with
    | nil => rfl
    | cons item rest ih =>
      cases i with
      | zero =>
        cases here
        rfl
      | succ i => simp [List.filterMap_cons, ih here]
  exact ⟨same ▸ h.distinct, same ▸ h.declared⟩

/-- The world after the declaration of variables with the given values. -/
def World.declares (w : World) (vs : List Value) : World :=
  { w with memory := w.memory ++ vs.toArray }

/-- The slots of the next `n` variables. -/
def World.fresh (w : World) (n : Nat) : List Item := (List.range' w.memory.size n).map .named

theorem World.Tracks.declares {w : World} {items : List Item} (h : w.Tracks items) (vs : List Value) :
    (w.declares vs).Tracks (items ++ w.fresh vs.length) := by
  have addresses : (items ++ w.fresh vs.length).filterMap Item.address? =
      items.filterMap Item.address? ++ List.range' w.memory.size vs.length := by
    simp [fresh, List.filterMap_map, Function.comp_def, Item.address?]
  constructor
  · rw [addresses, List.nodup_append]
    refine ⟨h.distinct, List.nodup_range', fun a mem b mem' => ?_⟩
    have := h.declared a mem
    have := List.mem_range'_1.1 mem'
    omega
  · rw [addresses]
    intro a mem
    simp only [World.declares, Array.size_append, List.size_toArray]
    rcases List.mem_append.1 mem with mem | mem
    · have := h.declared a mem
      omega
    · have := List.mem_range'_1.1 mem
      omega

/-- Declared variables hold the values that they were declared with, and other slots stay. -/
theorem World.values_declares {w : World} {items : List Item} (h : w.Tracks items) (vs : List Value) :
    (w.declares vs).values (items ++ w.fresh vs.length) = w.values items ++ vs := by
  rw [values_append]
  congr 1
  · apply List.map_congr_left
    rintro (v | a) mem
    · rfl
    · have := h.declared a (List.mem_filterMap.2 ⟨_, mem, rfl⟩)
      simp only [Item.value, World.contents, World.declares, Array.getElem?_append_left this]
  · apply List.ext_getElem
    · simp [values, fresh]
    · intro i inside inside'
      simp [values, fresh, Item.value, World.contents, World.declares, inside']

/-- The results or the fault of a program, and the world that it leaves behind. -/
abbrev Ending := Except Fault (List Value) × World

/-- The evaluation ends: with a value and a world that satisfy `K`, or with a fault, and then `o` is
that fault with the world it leaves behind. -/
def Evaluation.Gives {α : Type} (x : Evaluation α) (w : World) (o : Ending) (K : α → World → Prop) :
    Prop :=
  match x.outcome w with
  | none => False
  | some (.ok a, w') => K a w'
  | some (.error fault, w') => o = (.error fault, w')

namespace Evaluation.Gives

variable {α β : Type} {w : World} {o : Ending}

theorem bind {x : Evaluation α} {f : α → Evaluation β} {K : β → World → Prop}
    (h : (x >>= f).Gives w o K) : x.Gives w o fun a w' => (f a).Gives w' o K := by
  simp only [Gives, outcome_bind] at h ⊢
  generalize x.outcome w = r at h
  rcases r with _ | ⟨_ | a, w'⟩ <;> exact h

theorem mono {x : Evaluation α} {K L : α → World → Prop} (h : x.Gives w o K)
    (weaken : ∀ a w', K a w' → L a w') : x.Gives w o L := by
  unfold Gives at h ⊢
  generalize x.outcome w = r at h
  rcases r with _ | ⟨fault | a, w'⟩
  · exact h
  · exact h
  · exact weaken a w' h

theorem ended {x : Evaluation α} {K : α → World → Prop} (h : x.Gives w o K) :
    ∃ r w', x.outcome w = some (r, w') ∧ (∀ a, r = .ok a → K a w') ∧
      ∀ fault, r = .error fault → o = (.error fault, w') := by
  unfold Gives at h
  generalize same : x.outcome w = r at h
  rcases r with _ | ⟨fault | a, w'⟩
  · exact absurd h id
  · exact ⟨.error fault, w', rfl, by rintro _ ⟨⟩, by rintro _ ⟨⟩; exact h⟩
  · exact ⟨.ok a, w', rfl, by rintro _ ⟨⟩; exact h, by rintro _ ⟨⟩⟩

end Evaluation.Gives

/-- A machine at `ip` with the given slots and world ends with `o`, a fault being located somewhere in
the chunk. -/
def Ends (u : CodeUnit) (ip : Nat) (items : List Item) (w : World) (o : Ending) : Prop :=
  w.Tracks items → ∀ m : Machine, m.Shows u ip (w.values items) w →
    ∃ steps line m', m.run steps = some (o.1.mapError (·.locate u.source line), m') ∧
      m'.globals = o.2.globals ∧ m'.store.tables = o.2.tables

namespace Ends

variable {u : CodeUnit} {ip ip' a b : Nat} {items items' : List Item} {w w' : World} {o : Ending}
  {op : Opcode}

/-- One step. -/
theorem step (next : Ends u ip' items' w' o) (tracks : w.Tracks items → w'.Tracks items')
    (step : ∀ m : Machine, m.Shows u ip (w.values items) w → ∃ m' : Machine,
      Exec.step m = .ok none m' ∧ m'.Shows u ip' (w'.values items') w') :
    Ends u ip items w o := by
  intro tracked m shown
  obtain ⟨m₁, stepped, shown₁⟩ := step m shown
  obtain ⟨steps, line, m₂, ran, after⟩ := next (tracks tracked) m₁ shown₁
  exact ⟨steps + 1, line, m₂, by rw [Machine.run, stepped]; exact ran, after⟩

/-- A step that raises a fault, which nothing catches. -/
theorem fails {fault : Fault} (step : ∀ m : Machine, m.Shows u ip (w.values items) w →
      ∃ (m' : Machine) (ip' : Nat) (vs : List Value),
        Exec.step m = .error fault m' ∧ m'.Shows u ip' vs w') :
    Ends u ip items w (.error fault, w') := by
  intro tracked m shown
  obtain ⟨m₁, ip₁, vs, stepped, shown₁⟩ := step m shown
  have located : m₁.locate fault = fault.locate u.source (u.lineAt (ip₁ - 1)) := by
    rw [Machine.locate, shown₁.frames]
  have handlers : (m₁.thread m₁.running).handlers = [] := shown₁.handlers
  have dies : m₁.unwind (m₁.locate fault) =
      (false, { m₁.modifyThread m₁.running fun _ => {} with running := m₁.running, waiting := [] }) := by
    rw [Machine.unwind, Machine.unwindFrom, handlers, shown₁.waiting]
  refine ⟨1, u.lineAt (ip₁ - 1), (m₁.unwind (m₁.locate fault)).2, ?_, ?_⟩
  · simp only [Machine.run, stepped, dies]
    rw [located]
    rfl
  · rw [dies]
    exact ⟨shown₁.globals, shown₁.tables⟩

/-! ## Instructions -/

/-- Every instruction but a return is performed with the address moved past it. -/
theorem performs (holds : u.Holds ip op a b) (plain : op ≠ .ret) {vs : List Value} {m : Machine}
    (h : m.Shows u ip vs w) :
    Exec.step m = (do Exec.perform ⟨u, #[]⟩ op a b; pure none) m.advance := by
  obtain ⟨ins, code, opcode, rfl, rfl⟩ := holds
  have advanced : m.modifyCurrent (·.modifyFrame ({ · with ip := ip + 1 })) = m.advance := by
    apply Machine.modifyThread_congr
    simp [Thread.modifyFrame, show (m.thread m.running).frames = _ from h.frames]
  simp only [Exec.step, Exec.bind_apply, Exec.get_apply, h.frames, Exec.set_apply, code, opcode,
    advanced]

/-- An instruction that works on the topmost temporaries. -/
theorem operate {α : Type} {xs : List Value} {x : Evaluation α} {f : α → List Value}
    (holds : u.Holds ip op a b) (plain : op ≠ .ret)
    (implements : (Exec.perform ⟨u, #[]⟩ op a b).Implements xs x f)
    (gives : x.Gives w o fun r w' => Ends u (ip + 1) (items ++ temps (f r)) w' o) :
    Ends u ip (items ++ temps xs) w o := by
  obtain ⟨r, w', ran, ok, error⟩ := gives.ended
  have done : ∀ m : Machine, m.Shows u ip (w.values (items ++ temps xs)) w →
      w'.memory = w.memory ∧ ∃ (m' : Machine) (vs' : List Value), m'.Shows u (ip + 1) vs' w' ∧
        Exec.step m = Exec.ended (r.map fun _ => none) m' ∧
        ∀ a, r = .ok a → vs' = w.values items ++ f a := by
    intro m shown
    rw [w.values_append, w.values_temps] at shown
    obtain ⟨same, m', vs', shown', did, result⟩ := implements shown.advance r w' ran
    refine ⟨same, m', vs', shown', ?_, result⟩
    rw [performs holds plain shown]
    simp only [Exec.bind_apply, did]
    cases r <;> rfl
  cases r with
  | error fault =>
    rw [error fault rfl]
    refine fails fun m shown => ?_
    obtain ⟨-, m', vs', shown', did, -⟩ := done m shown
    exact ⟨m', ip + 1, vs', did, shown'⟩
  | ok r =>
    intro tracked m shown
    obtain ⟨same, -⟩ := done m shown
    refine step (ok r rfl) (fun _ => ?_) (fun m shown => ?_) tracked m shown
    · exact World.tracks_temps.2 ((World.tracks_temps.1 tracked).congr same)
    · obtain ⟨-, m', vs', shown', did, result⟩ := done m shown
      refine ⟨m', did, ?_⟩
      rw [w'.values_append, w'.values_temps, World.values_congr same, ← result r rfl]
      exact shown'

theorem loadK {v : Value} (holds : u.Holds ip .loadK a b) (found : u.constants[a]? = some v)
    (next : Ends u (ip + 1) (items ++ temps [v]) w o) : Ends u ip items w o := by
  have implements : (Exec.perform ⟨u, #[]⟩ .loadK a b).Implements [] (pure v : Evaluation Value)
      ([·]) := by
    intro m u' ip vs w h r w' ran
    cases ran
    rw [List.append_nil] at h
    refine ⟨rfl, _, _, h.push v, ?_, by rintro _ ⟨⟩; rfl⟩
    simp only [Exec.perform, Exec.constant, found]
    rfl
  have ends := operate holds (by simp) implements (o := o) (w := w) next
  rwa [show items ++ temps [] = items from List.append_nil items] at ends

theorem globalName_apply {name : String} (found : u.constants[a]? = some (.string name))
    (m : Machine) : Exec.globalName u a m = .ok name m := by
  simp only [Exec.globalName, Exec.constant, found, Exec.bind_apply, Exec.pure_apply]

theorem getGlobal {name : String} (holds : u.Holds ip .getGlobal a b)
    (found : u.constants[a]? = some (.string name))
    (next : Ends u (ip + 1) (items ++ temps [w.global name]) w o) : Ends u ip items w o := by
  refine step next World.tracks_temps.2 fun m h => ?_
  have value : m.advance.global name = w.global name := by
    rw [Machine.global, World.global, ← h.globals]
    rfl
  refine ⟨m.advance.push (w.global name), ?_, ?_⟩
  · rw [performs holds (by simp) h]
    simp only [Exec.perform, Exec.bind_apply, globalName_apply found, Exec.get_apply, value]
    rfl
  · rw [w.values_append, w.values_temps]
    exact h.advance.push _

theorem putGlobal {name : String} {v : Value} (holds : u.Holds ip .putGlobal a b)
    (found : u.constants[a]? = some (.string name))
    (next : Ends u (ip + 1) items (w.setGlobal name v) o) : Ends u ip (items ++ temps [v]) w o := by
  refine step next (fun h => (World.tracks_temps.1 h).congr rfl) fun m h => ?_
  rw [w.values_append, w.values_temps] at h
  have below := h.advance.drop (n := 1) rfl
  refine ⟨(m.advance.drop 1).setGlobal name v, ?_, ?_⟩
  · rw [performs holds (by simp) h]
    simp only [Exec.perform, Exec.bind_apply, globalName_apply found, Exec.pop_apply, h.advance.top_one,
      Exec.modify_apply]
    rfl
  · refine below.world below.bare rfl rfl rfl rfl ?_ below.tables
    simp only [Machine.setGlobal, World.setGlobal, below.globals]

theorem popStack {more : List Item} (holds : u.Holds ip .popStack a b) (count : more.length = a)
    (next : Ends u (ip + 1) items w o) : Ends u ip (items ++ more) w o := by
  refine step next (fun h => ?_) fun m h => ?_
  · obtain ⟨distinct, declared⟩ := h
    rw [List.filterMap_append] at distinct declared
    exact ⟨(List.nodup_append.1 distinct).1, fun a mem => declared a (List.mem_append_left _ mem)⟩
  · rw [w.values_append] at h
    have below := h.advance.drop (n := a) (by simp [World.values, count])
    have dropped : (m.advance.modifyCurrent fun t =>
        { t with stack := t.stack.shrink (t.stack.size - a) }) = m.advance.drop a := by
      simp only [Machine.drop, Array.shrink_eq_take]
    refine ⟨m.advance.drop a, ?_, below⟩
    rw [performs holds (by simp) h, ← dropped]
    rfl

theorem popClosed (holds : u.Holds ip .popClosed a b) (next : Ends u (ip + 1) items w o) :
    Ends u ip items w o := by
  refine step next id fun m h =>
    ⟨_, ?_, h.advance.captures fun t => t.captures.shrink (t.captures.size - a)⟩
  rw [performs holds (by simp) h]
  rfl

theorem jmp (holds : u.Holds ip .jmp a b) (next : Ends u a items w o) : Ends u ip items w o := by
  refine step next id fun m h => ⟨_, ?_, h.advance.jump a⟩
  rw [performs holds (by simp) h]
  rfl

/-- A conditional jump that takes its condition from the stack. -/
theorem jmpTrue {v : Value} (holds : u.Holds ip .jmpTrue a 0)
    (next : Ends u (if v.isTruthy then a else ip + 1) items w o) :
    Ends u ip (items ++ temps [v]) w o := by
  refine step next World.tracks_temps.1 fun m h => ?_
  have ran := performs holds (by simp) h
  rw [w.values_append, w.values_temps] at h
  have below := h.advance.drop (n := 1) rfl
  simp only [Exec.perform, Exec.bind_apply, Nat.zero_ne_one, if_false, Exec.pop_apply,
    h.advance.top_one] at ran
  rw [ran]
  cases v.isTruthy with
  | true => exact ⟨_, rfl, below.jump a⟩
  | false => exact ⟨_, rfl, below⟩

/-- A conditional jump that leaves its condition on the stack. -/
theorem jmpTrue_peek {v : Value} (holds : u.Holds ip .jmpTrue a 1)
    (next : Ends u (if v.isTruthy then a else ip + 1) (items ++ temps [v]) w o) :
    Ends u ip (items ++ temps [v]) w o := by
  refine step next id fun m h => ?_
  have ran := performs holds (by simp) h
  rw [w.values_append, w.values_temps] at h ⊢
  obtain ⟨c, cell, -, value⟩ := h.advance.cell 1 (Nat.le_refl 1) (by simp)
  have top : m.advance.store.cell c = v := by simpa using value.symm
  simp only [Exec.perform, Exec.bind_apply, if_true, Exec.peek_apply cell, top] at ran
  rw [ran]
  cases v.isTruthy with
  | true => exact ⟨_, rfl, h.advance.jump a⟩
  | false => exact ⟨_, rfl, h.advance⟩

/-- Copying a slot. -/
theorem getStack {item : Item} {slot : Nat} (holds : u.Holds ip .getStack (items.length - slot) b)
    (found : items[slot]? = some item)
    (next : Ends u (ip + 1) (items ++ temps [item.value w]) w o) : Ends u ip items w o := by
  have inside := (List.getElem?_eq_some_iff.1 found).1
  refine step next World.tracks_temps.2 fun m h => ?_
  have length : (w.values items).length = items.length := List.length_map ..
  obtain ⟨c, cell, -, value⟩ :=
    h.advance.cell (items.length - slot) (by omega) (by omega)
  have same : m.advance.store.cell c = item.value w := by
    rw [length, show items.length - (items.length - slot) = slot by omega, World.values,
      List.getElem?_map, found] at value
    exact (Option.some.inj value).symm
  refine ⟨m.advance.push (item.value w), ?_, ?_⟩
  · rw [performs holds (by simp) h]
    simp only [Exec.perform, Exec.bind_apply, Exec.peek_apply cell, same]
    rfl
  · rw [w.values_append, w.values_temps]
    exact h.advance.push _

/-- Popping the top value into a slot. -/
theorem putStack {v : Value} {slot : Nat}
    (holds : u.Holds ip .putStack (items.length + 1 - slot) b) (inside : slot < items.length)
    (tracks : w.Tracks items → w'.Tracks items')
    (values : w.Tracks items → w'.values items' = (w.values items).set slot v)
    (world : w'.globals = w.globals ∧ w'.tables = w.tables) (next : Ends u (ip + 1) items' w' o) :
    Ends u ip (items ++ temps [v]) w o := by
  intro tracked m shown
  have tracked' := World.tracks_temps.1 tracked
  refine step next (fun _ => tracks tracked') (fun m h => ?_) tracked m shown
  have ran := performs holds (by simp) h
  rw [w.values_append, w.values_temps] at h
  have length : (w.values items ++ [v]).length = items.length + 1 := by simp [World.values]
  obtain ⟨c, cell, place, -⟩ :=
    h.advance.cell (items.length + 1 - slot) (by omega) (by omega)
  rw [length, show items.length + 1 - (items.length + 1 - slot) = slot by omega] at place
  have below := h.advance.drop (n := 1) rfl
  have place' : (m.advance.drop 1).current.stack.toList[slot]? = some c := by
    rw [Machine.current_drop h.advance.inside, Array.getElem?_toList, Array.getElem?_extract,
      if_pos, Nat.zero_add, ← Array.getElem?_toList]
    · exact place
    · have := h.advance.size
      rw [length] at this
      omega
  refine ⟨{ m.advance.drop 1 with store := (m.advance.drop 1).store.setCell c v }, ?_, ?_⟩
  · rw [ran]
    simp only [Exec.perform, Exec.bind_apply, Exec.slot_apply cell, Exec.pop_apply,
      h.advance.top_one]
    rfl
  · rw [values tracked']
    have shown := below.setCell place' v
    exact shown.world (by simpa [World.Bare, world.2] using below.bare) rfl rfl rfl rfl
      (by rw [world.1]; exact below.globals) (by rw [world.2]; exact below.tables)

/-- Popping the top value into a variable. -/
theorem putVariable {v : Value} {slot address : Nat}
    (holds : u.Holds ip .putStack (items.length + 1 - slot) b)
    (found : items[slot]? = some (.named address))
    (next : Ends u (ip + 1) items (w.setContents address v) o) : Ends u ip (items ++ temps [v]) w o := by
  obtain ⟨inside, here⟩ := List.getElem?_eq_some_iff.1 found
  refine putStack holds inside (fun h => ⟨h.distinct, ?_⟩)
    (fun h => World.values_setContents h found v) ⟨rfl, rfl⟩ next
  simpa [World.setContents] using h.declared

/-- Popping the top value into the slot of another temporary. -/
theorem putTemporary {v v' : Value} {slot : Nat}
    (holds : u.Holds ip .putStack (items.length + 1 - slot) b)
    (found : items[slot]? = some (.temporary v'))
    (next : Ends u (ip + 1) (items.set slot (.temporary v)) w o) :
    Ends u ip (items ++ temps [v]) w o := by
  obtain ⟨inside, here⟩ := List.getElem?_eq_some_iff.1 found
  refine putStack holds inside (fun h => h.set found) (fun _ => ?_) ⟨rfl, rfl⟩ next
  simp only [World.values, List.map_set, Item.value]

/-- The topmost temporaries become variables. -/
theorem closeVars {vs : List Value} (holds : u.Holds ip .closeVars vs.length b)
    (next : Ends u (ip + 1) (items ++ w.fresh vs.length) (w.declares vs) o) :
    Ends u ip (items ++ temps vs) w o := by
  intro tracked m shown
  have tracked' := World.tracks_temps.1 tracked
  refine step next (fun _ => tracked'.declares vs) (fun m h => ?_) tracked m shown
  have ran := performs holds (by simp) h
  rw [w.values_append, w.values_temps] at h
  rw [World.values_declares tracked']
  have size := h.advance.size
  have enough : ¬m.advance.current.stack.size < vs.length := by
    rw [size, List.length_append]
    omega
  refine ⟨_, ?_, (h.advance.captures fun t => t.captures ++ t.stack.extract
    (m.advance.current.stack.size - vs.length) m.advance.current.stack.size).world h.bare rfl rfl rfl
      rfl h.globals h.tables⟩
  rw [ran]
  simp only [Exec.perform, Exec.closeVars, Exec.bind_apply, Exec.get_apply, enough, if_false]
  rfl

/-- The chunk returns the topmost temporaries. -/
theorem ret {vs : List Value} (holds : u.Holds ip .ret vs.length b) :
    Ends u ip (items ++ temps vs) w (.ok (vs.flatMap Value.spread), w) := by
  intro tracked m h
  rw [w.values_append, w.values_temps] at h
  obtain ⟨ins, code, opcode, given, -⟩ := holds
  have advanced : m.modifyCurrent (·.modifyFrame ({ · with ip := ip + 1 })) = m.advance := by
    apply Machine.modifyThread_congr
    simp [Thread.modifyFrame, show (m.thread m.running).frames = _ from h.frames]
  have below := h.advance.drop (n := vs.length) rfl
  have results : Exec.step m = Exec.returnFrom (vs.flatMap Value.spread) (m.advance.drop vs.length) := by
    simp only [Exec.step, Exec.bind_apply, Exec.get_apply, h.frames, Exec.set_apply, code, opcode,
      advanced, given, Exec.popSpread_eq, h.advance.spread]
  have returned : ∃ m', Exec.returnFrom (vs.flatMap Value.spread) (m.advance.drop vs.length) =
      .ok (some (vs.flatMap Value.spread)) m' ∧ m'.globals = w.globals ∧ m'.store.tables = w.tables := by
    simp only [Exec.returnFrom, Exec.bind_apply, Exec.get_apply, below.frames,
      Machine.waiting_modifyCurrent, below.waiting, List.isEmpty_nil, Bool.not_true,
      Bool.false_eq_true, if_false]
    exact ⟨_, rfl, below.globals, below.tables⟩
  obtain ⟨m', done, world⟩ := returned
  exact ⟨1, 0, m', by rw [Machine.run, results, done]; rfl, world⟩

end Ends

end ScriptEngine
