import ScriptEngine.Proofs.Compiler.Charted
import ScriptEngine.Proofs.Machine.Variables

/-!
# Variables are those that lexical scoping names

What the frame that runs sees is an environment: its live locals with the cells of their slots, the innermost
first, and then the variables of the functions around it with the cells that its closure has captured
(`Machine.environment`). The chart of the frame's code says what each instruction does about names, and
`Machine.Scopes` that it does it in this environment: an access leads to the innermost variable of its name, a
declaration puts new variables in front, whose cells nobody has known before, and a closure that is made takes
the whole environment along. That all closures have such charts, with the names of the program in the order of
its text, is `Closure.Compiled`. Both are so in every state that a machine comes to
(`Reachable.lexically_scoped`).
-/

set_option linter.dupNamespace false

namespace ScriptEngine

open Compiler

namespace Compiler

namespace Scope

variable {σ τ : Scope} {names : List String}

/-- The live locals, the innermost first. -/
def alive (σ : Scope) : List Local := σ.locals.filter fun l => l.slot < σ.depth && l.closurePos < σ.closed

theorem mem_alive {l : Local} : l ∈ σ.alive ↔ σ.Live l := by
  simp [alive, Live]

theorem alive_eq (live : ∀ l ∈ σ.locals, σ.Live l) : σ.alive = σ.locals :=
  List.filter_eq_self.2 fun l mem => by simpa [Live, mem] using live l mem

end Scope

/-- No two locals have the same slot. -/
theorem Ascending.eq_of_slot {locals : List Local} (h : Ascending locals) {l l' : Local} (mem : l ∈ locals)
    (mem' : l' ∈ locals) (same : l.slot = l'.slot) : l = l' := by
  induction locals with
  | nil => cases mem
  | cons first rest ih =>
    obtain ⟨below, h⟩ := List.pairwise_cons.1 h
    rcases List.mem_cons.1 mem with rfl | later <;> rcases List.mem_cons.1 mem' with rfl | later'
    · rfl
    · have := (below _ later').1
      omega
    · have := (below _ later).1
      omega
    · exact ih h later later'

/-- The live locals after a declaration. -/
theorem Scope.Declared.alive {σ τ : Scope} {names : List String} (declared : σ.Declared τ (some (.declare names)))
    (ascending : Ascending τ.locals) (old : Ascending σ.locals) (live : ∀ l ∈ σ.locals, σ.Live l)
    (below : ∀ l ∈ σ.locals, l.slot + names.length < σ.depth) :
    τ.alive = bind names (σ.depth - names.length) σ.closed σ.locals := by
  -- in the order of their slots, locals are determined by which they are
  have : Std.Antisymm fun l l' : Local => l'.slot < l.slot ∧ l'.closurePos < l.closurePos :=
    ⟨fun _ _ below above => absurd below.1 (Nat.lt_asymm above.1)⟩
  have : Std.Irrefl fun l l' : Local => l'.slot < l.slot ∧ l'.closurePos < l.closurePos :=
    ⟨fun _ below => Nat.lt_irrefl _ below.1⟩
  refine (ascending.filter _).eq_of_mem_iff (ascending_bind old fun l mem => ?_) fun l => mem_alive.trans (declared l)
  have := below l mem
  exact ⟨by omega, (live l mem).2.2⟩

/-- Each declared name stands for the cell of its slot, the latest first. -/
theorem map_bind (cell : Nat → Nat) (names : List String) (slot pos : Nat) (locals : List Local) :
    (bind names slot pos locals).map (fun l => (l.name, cell l.slot)) =
      (names.zip ((List.range' slot names.length).map cell)).reverse ++ locals.map fun l => (l.name, cell l.slot) := by
  induction names generalizing slot pos locals with
  | nil => rfl
  | cons name rest ih =>
    rw [bind, ih]
    simp [List.range'_succ]

end Compiler

/-! ## Environments -/

/-- Variables by their names, the innermost first, each with its cell. -/
abbrev Variables := List (String × Nat)

/-- What the closure sees of the functions around it, with the cells that it has captured. -/
def Closure.outer (c : Closure) (enclosing : List (String × Nat)) : Variables :=
  enclosing.map fun p => (p.1, c.upvalues.getD p.2 0)

namespace Machine

variable {m : Machine} {f : Frame} {enclosing : List (String × Nat)} {σ : Scope}

/-- What the frame that runs sees: its live locals with the cells of their slots, and then what its closure sees. -/
def environment (m : Machine) (f : Frame) (σ : Scope) (enclosing : List (String × Nat)) : Variables :=
  σ.alive.map (fun l => (l.name, m.current.stack.getD (f.base + l.slot) 0)) ++ f.closure.outer enclosing

/-- The cell to which a variable's place leads; a global has none. -/
def cellOf (m : Machine) (f : Frame) : Var → Option Nat
  | .slot slot => some (m.current.stack.getD (f.base + slot) 0)
  | .upvalue pos => some (f.closure.upvalues.getD pos 0)
  | .global => none

theorem lookup_map {α : Type} (key : α → String) (cell : α → Nat) (xs : List α) (name : String) :
    (xs.map fun x => (key x, cell x)).lookup name = (xs.find? (key · == name)).map cell := by
  induction xs with
  | nil => rfl
  | cons x xs ih =>
    rw [List.map_cons, List.lookup_cons, List.find?_cons, ih, Bool.beq_comm]
    cases key x == name <;> rfl

/-- The compiler finds the place of the variable that comes first in the environment. -/
theorem lookup_environment (live : ∀ l ∈ σ.locals, σ.Live l) (name : String) :
    (m.environment f σ enclosing).lookup name = m.cellOf f (resolveIn σ.locals enclosing name) := by
  rw [environment, Scope.alive_eq live, List.lookup_append, lookup_map, Closure.outer, lookup_map, resolveIn]
  cases σ.locals.find? (·.name == name) with
  | some l => rfl
  | none => cases enclosing.find? (·.1 == name) <;> rfl

/-- The names in the environment are those that are visible. -/
theorem names_environment (live : ∀ l ∈ σ.locals, σ.Live l) :
    (m.environment f σ enclosing).map Prod.fst = σ.visible enclosing := by
  rw [environment, Scope.alive_eq live, Closure.outer, Scope.visible, List.map_append, List.map_map, List.map_map]
  rfl

end Machine

/-! ## Closures of compiled code -/

/-- An instruction that can do something about names, and nothing else, does it. -/
theorem CodeUnit.Names.noted {u : CodeUnit} {enclosing : List (String × Nat)} {σ : Scope} {op : Opcode} {a : Nat}
    {naming : Option Naming} (h : u.Names enclosing σ op a naming) :
    (op = .getUpval ∨ op = .putUpval ∨ op = .getGlobal ∨ op = .putGlobal → ∃ name, naming = some (.access name)) ∧
      (op = .closeVars → ∃ names, naming = some (.declare names)) ∧
      (op = .closure → ∃ g, naming = some (.nested g)) := by
  cases naming with
  | none =>
    obtain ⟨noGetUpval, noPutUpval, noGetGlobal, noPutGlobal, noCloseVars, noClosure⟩ := h
    exact ⟨by simp [*], fun closes => absurd closes noCloseVars, fun makes => absurd makes noClosure⟩
  | some naming =>
    cases naming with
    | access name =>
      refine ⟨fun _ => ⟨name, rfl⟩, ?_, ?_⟩ <;>
        (rintro rfl; simp only [Names] at h; split at h <;> simp at h)
    | declare names =>
      obtain ⟨rfl, -⟩ := h
      exact ⟨by simp, fun _ => ⟨names, rfl⟩, by simp⟩
    | nested g =>
      obtain rfl : op = .closure := h
      exact ⟨by simp, by simp, fun _ => ⟨g, rfl⟩⟩

/-- What the instruction at an address does about names is among what the unit does. -/
theorem Chart.mem_namings {C : Chart} {enclosing : List (String × Nat)} {u : CodeUnit} {ip : Nat} {op : Opcode}
    {a b : Nat} {naming : Naming} (holds : u.Holds ip op a b) (noted : (C ip).naming = some naming) :
    (naming, (C ip).scope.visible enclosing) ∈ C.namings enclosing u := by
  obtain ⟨ins, code, -⟩ := holds
  refine List.mem_filterMap.2 ⟨C ip, List.mem_map.2 ⟨ip, List.mem_range.2 ?_, rfl⟩, by rw [noted]; rfl⟩
  exact (Array.getElem?_eq_some_iff.1 code).1

/-- The chart is one of the closure's code: the names around it lead to cells that the closure has captured, and
the units nested in it have charts. -/
structure Closure.Charts (c : Closure) (enclosing : List (String × Nat)) (C : Chart) : Prop where
  suits : C.Suits enclosing c.upvalues.size c.unit
  captured : ∀ p ∈ enclosing, p.2 < c.upvalues.size
  nested : ∀ ip a b u g, c.unit.Holds ip .closure a b → c.unit.child? a = some u →
    (C ip).naming = some (.nested g) → Charted ((C ip).scope.names enclosing) (C ip).scope.closed u
      (g.namings ((C ip).scope.visible enclosing))

/-- A charted unit's closures have charts. -/
theorem Charted.charts {enclosing : List (String × Nat)} {n : Nat} {u : CodeUnit} {T : Namings}
    (h : Charted enclosing n u T) (upvalues : Array Nat) (size : upvalues.size = n)
    (captured : ∀ p ∈ enclosing, p.2 < n) :
    ∃ C, Closure.Charts ⟨u, upvalues⟩ enclosing C ∧ C.namings enclosing u = T := by
  cases h with
  | intro C suits nested =>
    subst size
    exact ⟨C, ⟨suits, captured, fun ip a b u g => nested ip a b u g⟩, rfl⟩

/-- The closure's code does about names what the code of a function of some program does, or that of the program
itself. -/
def Closure.Compiled (c : Closure) : Prop :=
  ∃ text program enclosing C, Parser.parse text = .ok program ∧ c.Charts enclosing C ∧
    program.Does (C.namings enclosing c.unit)

theorem Closure.IsChunk.compiled {c : Closure} (h : c.IsChunk) : c.Compiled := by
  obtain ⟨u, upvalues⟩ := c
  obtain ⟨none', text, label, compiled⟩ := h
  simp only [Compiler.compileSource, Bind.bind, Except.bind] at compiled
  cases parsed : Parser.parse text with
  | error e =>
    rw [parsed] at compiled
    cases compiled
  | ok program =>
    simp only [parsed, Except.mapError] at compiled
    cases done : compile label program with
    | error e =>
      rw [done] at compiled
      cases compiled
    | ok unit =>
      rw [done] at compiled
      cases compiled
      simp only at none'
      subst none'
      obtain ⟨C, charts, does⟩ := (compile_charted done).charts #[] rfl (by simp)
      exact ⟨text, program, [], C, parsed, charts, does ▸ .chunk⟩

/-- A local's place is that of one of the locals. -/
theorem Compiler.mem_of_resolveIn_slot {locals : List Local} {enclosing : List (String × Nat)} {name : String}
    {slot : Nat} (place : resolveIn locals enclosing name = .slot slot) : ∃ l ∈ locals, l.slot = slot := by
  unfold resolveIn at place
  cases found : locals.find? (·.name == name) with
  | some l =>
    rw [found] at place
    cases place
    exact ⟨l, List.mem_of_find?_eq_some found, rfl⟩
  | none =>
    rw [found] at place
    cases outer : enclosing.find? (·.1 == name) <;> rw [outer] at place <;> cases place

/-- An upvalue's place is that of one of the names around. -/
theorem Compiler.mem_of_resolveIn_upvalue {locals : List Local} {enclosing : List (String × Nat)} {name : String}
    {pos : Nat} (place : resolveIn locals enclosing name = .upvalue pos) : ∃ p ∈ enclosing, p.2 = pos := by
  unfold resolveIn at place
  cases found : locals.find? (·.name == name) with
  | some l =>
    rw [found] at place
    cases place
  | none =>
    rw [found] at place
    cases outer : enclosing.find? (·.1 == name) with
    | some p =>
      rw [outer] at place
      cases place
      exact ⟨p, List.mem_of_find?_eq_some outer, rfl⟩
    | none =>
      rw [outer] at place
      cases place

namespace Machine

/-! ## What an instruction does about names -/

/-- The value of the variable with that cell or, if there is no variable, of the global. -/
def valueOf (m : Machine) (cell : Option Nat) (name : String) : Value :=
  match cell with
  | some x => m.store.cell x
  | none => m.global name

/-- Gives the variable with that cell or, if there is no variable, the global a value. -/
def assign (m : Machine) (cell : Option Nat) (name : String) (v : Value) : Machine :=
  match cell with
  | some x => { m with store := m.store.setCell x v }
  | none => m.setGlobal name v

/-- The next step reads the variable and pushes its value, or pops a value and gives it to the variable. -/
inductive Accesses (m : Machine) (cell : Option Nat) (name : String) : Prop where
  | read {op : Opcode} {a b : Nat} (next : m.next? = some (op, a, b))
      (reads : op = .getStack ∨ op = .getUpval ∨ op = .getGlobal)
      (step : Exec.step m = .ok none (m.advance.push (m.valueOf cell name)))
  | write {op : Opcode} {a b : Nat} (next : m.next? = some (op, a, b))
      (writes : op = .putStack ∨ op = .putUpval ∨ op = .putGlobal)
      (step : Exec.step m = .ok none ((m.advance.drop 1).assign cell name (m.top 1)))

variable {m m' : Machine} {f : Frame} {rest : List Frame} {op : Opcode} {a b : Nat}
  {enclosing : List (String × Nat)} {C : Chart}

namespace Poises

theorem fits (poises : m.Poises f rest op a b) (charts : f.closure.Charts enclosing C) :
    Fits f.closure.unit enclosing C f.ip op a b := charts.suits.fits _ _ _ _ poises.holds

theorem depths (poises : m.Poises f rest op a b) (charts : f.closure.Charts enclosing C) :
    m.current.stack.size = f.base + (C f.ip).scope.depth ∧
      m.current.captures.size = f.captureBase + (C f.ip).scope.closed :=
  poises.upright.rests.charted ⟨enclosing, charts.suits⟩

theorem top_advance (poises : m.Poises f rest op a b) (n : Nat) : m.advance.top n = m.top n := by
  rw [top, poises.thread]
  rfl

theorem accesses_slot (poises : m.Poises f rest op a b) (which : op = .getStack ∨ op = .putStack) {slot : Nat}
    (inside : f.base + slot < m.current.stack.size) (offset : f.base + slot + a = m.current.stack.size)
    (name : String) : m.Accesses (m.cellOf f (.slot slot)) name := by
  have found : m.advance.current.cell? a = some (m.current.stack.getD (f.base + slot) 0) := by
    rw [poises.thread, Thread.cell?, if_pos (by simp only; omega),
      show m.current.stack.size - a = f.base + slot by omega, Array.getElem?_eq_getElem inside]
    simp [Array.getD, inside]
  rcases which with rfl | rfl
  · refine .read poises.instruction (.inl rfl) ?_
    rw [poises.performs (by simp)]
    simp only [Exec.perform, Exec.bind_apply, Exec.peek_apply found, Exec.push_apply]
    rfl
  · refine .write poises.instruction (.inl rfl) ?_
    rw [poises.performs (by simp)]
    simp only [Exec.perform, Exec.bind_apply, Exec.slot_apply found, Exec.pop_apply, Exec.setCell, Exec.modify_apply,
      poises.top_advance]
    rfl

theorem accesses_upvalue (poises : m.Poises f rest op a b) (which : op = .getUpval ∨ op = .putUpval)
    (inside : a < f.closure.upvalues.size) (name : String) : m.Accesses (m.cellOf f (.upvalue a)) name := by
  have same : f.closure.upvalues[a] = f.closure.upvalues.getD a 0 := by simp [Array.getD, inside]
  rcases which with rfl | rfl
  · refine .read poises.instruction (.inr (.inl rfl)) ?_
    rw [poises.performs (by simp)]
    simp only [Exec.perform, Exec.bind_apply, Poised.upvalue_apply inside, Exec.get_apply, Exec.push_apply, same]
    rfl
  · refine .write poises.instruction (.inr (.inl rfl)) ?_
    rw [poises.performs (by simp)]
    simp only [Exec.perform, Exec.bind_apply, Poised.upvalue_apply inside, Exec.pop_apply, Exec.setCell,
      Exec.modify_apply, poises.top_advance, same]
    rfl

theorem accesses_global (poises : m.Poises f rest op a b) (which : op = .getGlobal ∨ op = .putGlobal)
    {name : String} (found : f.closure.unit.constants[a]? = some (.string name)) : m.Accesses none name := by
  rcases which with rfl | rfl
  · refine .read poises.instruction (.inr (.inr rfl)) ?_
    rw [poises.performs (by simp)]
    simp only [Exec.perform, Exec.bind_apply, Poised.globalName_apply found, Exec.get_apply, Exec.push_apply]
    rfl
  · refine .write poises.instruction (.inr (.inr rfl)) ?_
    rw [poises.performs (by simp)]
    simp only [Exec.perform, Exec.bind_apply, Poised.globalName_apply found, Exec.pop_apply, Exec.modify_apply,
      poises.top_advance]
    rfl

/-- An access leads to the innermost variable of its name. -/
theorem accesses (poises : m.Poises f rest op a b) (charts : f.closure.Charts enclosing C) {name : String}
    (noted : (C f.ip).naming = some (.access name)) :
    m.Accesses ((m.environment f (C f.ip).scope enclosing).lookup name) name := by
  have fits := poises.fits charts
  have live := fits.live (by rw [noted]; rfl)
  have stands := fits.names
  obtain ⟨depth, -⟩ := poises.depths charts
  rw [lookup_environment live]
  simp only [noted, CodeUnit.Names] at stands
  cases place : resolveIn (C f.ip).scope.locals enclosing name with
  | slot slot =>
    simp only [place] at stands
    obtain ⟨l, mem, rfl⟩ := mem_of_resolveIn_slot place
    have inside := (live l mem).2.1
    exact poises.accesses_slot stands.1 (by omega) (by omega) name
  | upvalue pos =>
    simp only [place] at stands
    obtain ⟨which, rfl⟩ := stands
    obtain ⟨p, mem, rfl⟩ := mem_of_resolveIn_upvalue place
    exact poises.accesses_upvalue which (charts.captured p mem) name
  | «global» =>
    simp only [place] at stands
    exact poises.accesses_global stands.1 stands.2

/-- Where the next instruction is, its locals are in ascending order too. -/
theorem ascending_next (poises : m.Poises f rest op a b) (charts : f.closure.Charts enclosing C)
    (next : op.continues = true) (stack : 0 ≤ m.current.stack.size + Instruction.stackEffect op a b)
    (captures : 0 ≤ m.current.captures.size + Instruction.closedEffect op a) :
    Ascending (C (f.ip + 1)).scope.locals := by
  obtain ⟨-, -, ins, op', code, opcode, -⟩ := (poises.next (f.ip + 1)
    (m.current.stack.size + Instruction.stackEffect op a b).toNat
    (m.current.captures.size + Instruction.closedEffect op a).toNat (.inl ⟨rfl, next⟩)
    (Int.toNat_of_nonneg stack) (Int.toNat_of_nonneg captures)).next
  exact (charts.suits.fits (f.ip + 1) op' _ _ ⟨ins, code, opcode, rfl, rfl⟩).ascending

/-- A declaration puts the cells of the topmost slots under the declared names in front of the environment. -/
theorem declares (h : m.Ordered Thread.Active) (poises : m.Poises f rest op a b)
    (charts : f.closure.Charts enclosing C) {names : List String} (noted : (C f.ip).naming = some (.declare names)) :
    ∃ m' cells, Exec.step m = .ok none m' ∧ m'.store = m.store ∧ m'.current = { m.current with
        captures := m.current.captures ++ cells.toArray
        frames := { f with ip := f.ip + 1 } :: rest } ∧
      cells = (m.current.stack.extract (m.current.stack.size - names.length) m.current.stack.size).toList ∧
      cells.length = names.length ∧
      m'.environment { f with ip := f.ip + 1 } (C (f.ip + 1)).scope enclosing =
        (names.zip cells).reverse ++ m.environment f (C f.ip).scope enclosing := by
  have fits := poises.fits charts
  have live := fits.live (by rw [noted]; rfl)
  have stands := fits.names
  have declared := fits.declared
  rw [noted] at stands declared
  obtain ⟨rfl, rfl⟩ := stands
  obtain ⟨depth, -⟩ := poises.depths charts
  have touched := poises.touched_le
  simp only [Opcode.touched, Opcode.operands] at touched
  have below := ((fits.passes _ (Verifier.mem_successors.2 (.inl ⟨rfl, rfl⟩))).binds rfl).1
  obtain ⟨m', step, running, store, current⟩ := poises.closes h
  have ascending := poises.ascending_next charts rfl (by simp only [Instruction.stackEffect]; omega)
    (by simp only [Instruction.closedEffect]; omega)
  have alive := declared.alive ascending fits.ascending live below
  have cells : (List.range' ((C f.ip).scope.depth - names.length) names.length).map
      (fun i => m.current.stack.getD (f.base + i) 0) =
      (m.current.stack.extract (m.current.stack.size - names.length) m.current.stack.size).toList := by
    refine List.ext_getElem (by simp; omega) fun i low high => ?_
    simp only [List.length_map, List.length_range'] at low
    have place : f.base + ((C f.ip).scope.depth - names.length + i) = m.current.stack.size - names.length + i := by
      omega
    simp only [List.getElem_map, List.getElem_range', Nat.one_mul, place, Array.getElem_toList, Array.getElem_extract]
    rw [Array.getD, dif_pos (by omega)]
    rfl
  refine ⟨m', _, step, store, by rw [current, Array.toArray_toList], rfl, by simp; omega, ?_⟩
  rw [environment, environment, alive, Scope.alive_eq live, current,
    map_bind (fun i => m.current.stack.getD (f.base + i) 0), cells, List.append_assoc]

/-- The closure that is made has a chart, which goes on where the frame's is. -/
theorem nests (poises : m.Poises f rest .closure a b) (charts : f.closure.Charts enclosing C)
    {g : FunctionBody} (noted : (C f.ip).naming = some (.nested g)) : ∃ child, f.closure.unit.child? a = some child ∧
      ∃ C', Closure.Charts ⟨child, m.current.captures.extract f.captureBase m.current.captures.size⟩
          ((C f.ip).scope.names enclosing) C' ∧
        C'.namings ((C f.ip).scope.names enclosing) child = g.namings ((C f.ip).scope.visible enclosing) := by
  have live := (poises.fits charts).live (by rw [noted]; rfl)
  obtain ⟨depth, closed⟩ := poises.depths charts
  have room := poises.upright.rests.captureBase_le
  obtain ⟨captured, d, poised⟩ := poises.poised
  obtain ⟨child, found, -⟩ := poised.legal.nested rfl
  have captured (p : String × Nat) (mem : p ∈ (C f.ip).scope.names enclosing) : p.2 < (C f.ip).scope.closed := by
    rcases List.mem_append.1 mem with mem | mem
    · obtain ⟨l, own, rfl⟩ := List.mem_map.1 mem
      exact (live l own).2.2
    · have := charts.captured p mem
      omega
  exact ⟨child, found, (charts.nested f.ip a b child g poises.holds found noted).charts
    (m.current.captures.extract f.captureBase m.current.captures.size)
    (by simp only [Array.size_extract]; omega) captured⟩

/-- A closure that is made takes the whole environment along. -/
theorem makes (poises : m.Poises f rest op a b) (settled : m.Scoped) (charts : f.closure.Charts enclosing C)
    {g : FunctionBody} (noted : (C f.ip).naming = some (.nested g)) : ∃ k : Closure,
      Exec.step m = .ok none (({ m.advance with store := (m.store.newClosure k).2 } : Machine).push
        (.closure (m.store.newClosure k).1)) ∧
      k.upvalues = m.current.captures.extract f.captureBase m.current.captures.size ∧
      (∃ C', k.Charts ((C f.ip).scope.names enclosing) C' ∧ C'.namings ((C f.ip).scope.names enclosing) k.unit =
        g.namings ((C f.ip).scope.visible enclosing)) ∧
      k.outer ((C f.ip).scope.names enclosing) = m.environment f (C f.ip).scope enclosing := by
  have fits := poises.fits charts
  have live := fits.live (by rw [noted]; rfl)
  have stands := fits.names
  rw [noted] at stands
  obtain rfl : op = .closure := stands
  obtain ⟨depth, closed⟩ := poises.depths charts
  have room := poises.upright.rests.captureBase_le
  obtain ⟨child, found, nested⟩ := poises.nests charts noted
  have minded := settled.minded m.running
  rw [show m.thread m.running = m.current from rfl, Thread.Minded, poises.frames] at minded
  obtain ⟨inherited, locals⟩ := minded.2.2.1 C ⟨enclosing, charts.suits⟩
  have view {i : Nat} (inside : i < (C f.ip).scope.closed) :
      (m.current.captures.extract f.captureBase m.current.captures.size).getD i 0 =
        m.current.captures.getD (f.captureBase + i) 0 := by
    simp only [Array.getD_eq_getD_getElem?, Array.getElem?_extract]
    rw [if_pos (by omega)]
  refine ⟨_, ?_, rfl, nested, ?_⟩
  · rw [poises.performs (by simp)]
    simp only [Exec.perform, Exec.makeClosure, found, Exec.bind_apply, Exec.get_apply, poises.thread, Exec.onStore_apply]
    rfl
  · rw [environment, Scope.alive_eq live, Closure.outer, Closure.outer, Scope.names, List.map_append, List.map_map]
    congr 1
    · refine List.map_congr_left fun l mem => ?_
      have alive := live l mem
      simp only [Function.comp, view alive.2.2]
      rw [Array.getD_eq_getD_getElem?, (locals l alive).2.2, Array.getD_eq_getD_getElem?]
    · refine List.map_congr_left fun p mem => ?_
      have inside := charts.captured p mem
      rw [view (by omega), Array.getD_eq_getD_getElem?, (inherited p.2 inside).2, Array.getD_eq_getD_getElem?]

end Poises

/-! ## Every state -/

/-- The closures that the next instruction makes are compiled if those that are there are. -/
theorem Ordered.makes_compiled (ordered : m.Ordered Thread.Active) (compiled : ∀ c, m.Has c → c.Compiled)
    {c : Closure} (made : m.nextDeeds.makes c) : c.Compiled := by
  unfold nextDeeds at made
  split at made
  · rename_i op a b next
    obtain ⟨rfl, f, rest, child, frames, found, rfl⟩ := made
    obtain ⟨op', a', b', poises⟩ := ordered.poises frames
    rw [poises.instruction] at next
    cases next
    obtain ⟨text, program, enclosing, C, parsed, charts, does⟩ :=
      compiled f.closure (.inr ⟨m.running, f, by rw [show m.thread m.running = m.current from rfl, frames]; simp, rfl⟩)
    obtain ⟨g, noted⟩ := CodeUnit.Names.noted (poises.fits charts).names |>.2.2 rfl
    obtain ⟨child', found', C', charts', does'⟩ := poises.nests charts noted
    rw [found] at found'
    cases found'
    exact ⟨text, program, _, C', parsed, charts', does' ▸ .nested does (Chart.mem_namings poises.holds noted)⟩
  · exact made.elim

/-- All closures that there are have been made by code of a program. -/
theorem Reachable.compiled {Barred : Machine → Prop}
    (slips : ∀ m : Machine, m.Ordered Thread.Active → m.Slips → Barred m) (h : m.Reachable Barred)
    (discreet : ∀ f ∈ m.hosts, f.Discreet) {c : Closure} (has : m.Has c) : c.Compiled := by
  revert c discreet
  refine Reachable.of_happens (P := fun m => (∀ f ∈ m.hosts, f.Discreet) → ∀ c, m.Has c → c.Compiled)
    (fun config discreet c has => ?_) (fun m m' reach ih next discreet' c has => ?_) h
  · obtain ⟨threads, closures⟩ := Blank.machine config
    rcases has with mem | ⟨id, f, mem, -⟩
    · simp [closures] at mem
    · rw [thread, threads] at mem
      cases id <;> simp at mem
  · have ordered := reach.ordered slips
    have discreet := fun f mem => discreet' f (next.hosts ordered f mem)
    rcases (next.draws ordered (reach.separate slips discreet) discreet').closures c has with has | chunk | made
    · exact ih discreet c has
    · exact chunk.compiled
    · exact ordered.makes_compiled (ih discreet) made

/-- From `m` to `m'` live locals have kept their cells: the cell of a local that is live now was in its slot before. -/
def Keeps (m m' : Machine) : Prop :=
  ∀ id, ∀ g ∈ (m'.thread id).frames, ∀ C, g.closure.Follows C → ∀ l, (C g.ip).scope.Live l →
    ∀ x, m'.Slot id (g.base + l.slot) x → m.Slot id (g.base + l.slot) x

/-- The cell of a live local is in the closure list. -/
theorem Scoped.shared_of_live (h : m.Scoped) {id : Nat} {g : Frame} (mem : g ∈ (m.thread id).frames)
    (follows : g.closure.Follows C) {l : Local} (live : (C g.ip).scope.Live l) {x : Nat}
    (slot : m.Slot id (g.base + l.slot) x) : m.Shared x := by
  obtain ⟨n, k, minds⟩ := (h.minded id).of_mem mem follows
  have same := (minds.live l live).2.2
  rw [show (m.thread id).stack[g.base + l.slot]? = some x from slot] at same
  exact .inl ⟨id, Array.mem_of_getElem? same⟩

/-- Whatever happens, live locals keep their cells. -/
theorem Happens.keeps (reach : m.Reachable Doubles) (next : m.Happens Doubles m')
    (discreet' : ∀ f ∈ m'.hosts, f.Discreet) : m.Keeps m' := by
  intro id g mem C follows l live x slot
  have settled := reach.scoped fun f mem => discreet' f (next.hosts reach.in_order f mem)
  have draws := next.draws reach.in_order settled.separate discreet'
  have shared := ((reach.happens next).scoped discreet').shared_of_live mem follows live slot
  rcases draws.slots id _ x slot with old | new
  · exact old
  -- a new cell is known by its slot only
  rcases draws.shared x shared with known | bound
  · have := settled.separate.shared x known
    omega
  · obtain ⟨a, b, -, i, old, -⟩ := Scoped.bound bound
    have := settled.separate.slots _ _ x old
    omega

/-- What the frame that runs does about names is what lexical scoping says. `C` charts its code, and `enclosing` are
the names of the functions around it. -/
structure Scopes (m : Machine) (f : Frame) (rest : List Frame) (enclosing : List (String × Nat)) (C : Chart) :
    Prop where
  /-- The frame's view of the closure list has as many entries as are closed over there. -/
  view : m.current.captures.size = f.captureBase + (C f.ip).scope.closed
  /-- The view begins with the cells that the closure has captured. -/
  inherited : ∀ i, i < f.closure.upvalues.size →
    m.current.captures[f.captureBase + i]? = f.closure.upvalues[i]?
  /-- The cell of a live local is that of its slot. -/
  shares : ∀ l, (C f.ip).scope.Live l → ∃ x, m.current.stack[f.base + l.slot]? = some x ∧
    m.current.captures[f.captureBase + l.closurePos]? = some x
  /-- No other slot of any thread has it. -/
  apart : ∀ l, (C f.ip).scope.Live l → ∀ x, m.current.stack[f.base + l.slot]? = some x →
    ∀ id i, m.Slot id i x → id = m.running ∧ i = f.base + l.slot
  distinct : ∀ l l', (C f.ip).scope.Live l → (C f.ip).scope.Live l' →
    m.current.stack[f.base + l.slot]? = m.current.stack[f.base + l'.slot]? → l = l'
  /-- The chart says what the instruction does about names. -/
  noted : ∀ op a b, m.next? = some (op, a, b) →
    (op = .getUpval ∨ op = .putUpval ∨ op = .getGlobal ∨ op = .putGlobal →
      ∃ name, (C f.ip).naming = some (.access name)) ∧
    (op = .closeVars → ∃ names, (C f.ip).naming = some (.declare names)) ∧
    (op = .closure → ∃ g, (C f.ip).naming = some (.nested g))
  /-- Wherever control goes next, the live locals are live here or have just been declared. -/
  follows : ∀ op a b, m.next? = some (op, a, b) → ∀ ip ∈ Verifier.successors op a f.ip, ∀ l,
    (C ip).scope.Live l → (C f.ip).scope.Live l ∨ ∃ names, (C f.ip).naming = some (.declare names)
  /-- Where the instruction does something about names, the environment has those that are visible. -/
  visible : (C f.ip).naming.isSome = true →
    (m.environment f (C f.ip).scope enclosing).map Prod.fst = (C f.ip).scope.visible enclosing
  /-- An access leads to the innermost variable of its name. -/
  accesses : ∀ name, (C f.ip).naming = some (.access name) →
    m.Accesses ((m.environment f (C f.ip).scope enclosing).lookup name) name
  /-- A declaration puts new variables in front, whose cells nobody has known before. -/
  declares : ∀ names, (C f.ip).naming = some (.declare names) → ∃ m' cells, Exec.step m = .ok none m' ∧
    m'.store = m.store ∧ m'.current = { m.current with
      captures := m.current.captures ++ cells.toArray
      frames := { f with ip := f.ip + 1 } :: rest } ∧
    cells.length = names.length ∧
    m'.environment { f with ip := f.ip + 1 } (C (f.ip + 1)).scope enclosing =
      (names.zip cells).reverse ++ m.environment f (C f.ip).scope enclosing ∧
    ∀ m₀ : Machine, m₀.Reachable Doubles → Relation.ReflTransGen (Happens Doubles) m₀ m →
      ∀ x ∈ cells, ¬m₀.Shared x
  /-- A closure that is made takes the view along, and with it the environment. -/
  makes : ∀ g, (C f.ip).naming = some (.nested g) → ∃ k : Closure,
    Exec.step m = .ok none (({ m.advance with store := (m.store.newClosure k).2 } : Machine).push
      (.closure (m.store.newClosure k).1)) ∧
    k.upvalues = m.current.captures.extract f.captureBase m.current.captures.size ∧
    (∃ C', k.Charts ((C f.ip).scope.names enclosing) C' ∧ C'.namings ((C f.ip).scope.names enclosing) k.unit =
      g.namings ((C f.ip).scope.visible enclosing)) ∧
    k.outer ((C f.ip).scope.names enclosing) = m.environment f (C f.ip).scope enclosing

/-- The slots over which an instruction closes are no local's yet. -/
theorem Poises.temporary (poises : m.Poises f rest .closeVars a b) (charts : f.closure.Charts enclosing C) {i : Nat}
    (low : m.current.stack.size ≤ i + a) (high : i < m.current.stack.size) : (m.thread m.running).Temporary i := by
  obtain ⟨depth, -⟩ := poises.depths charts
  have touched := poises.touched_le
  simp only [Opcode.touched, Opcode.operands] at touched
  have below := (((poises.fits charts).passes _ (Verifier.mem_successors.2 (.inl ⟨rfl, rfl⟩))).binds rfl).1
  rw [show m.thread m.running = m.current from rfl, Thread.Temporary, poises.frames]
  refine .inl ⟨by omega, high, C, ⟨enclosing, charts.suits⟩, fun l mem same => ?_⟩
  have := below l mem
  omega

/-- The cells over which the next instruction closes have been known by their slots only, all the time. -/
theorem Reachable.fresh (h : m.Reachable Doubles) (run : Relation.ReflTransGen (Happens Doubles) m m')
    (discreet : ∀ f ∈ m'.hosts, f.Discreet) (poises : m'.Poises f rest .closeVars a b)
    (charts : f.closure.Charts enclosing C) {x : Nat}
    (mem : x ∈ m'.current.stack.extract (m'.current.stack.size - a) m'.current.stack.size) : ¬m.Shared x := by
  obtain ⟨i, inside, rfl⟩ := Array.mem_iff_getElem.1 mem
  rw [Array.getElem_extract]
  rw [Array.size_extract, Nat.min_self] at inside
  exact h.unused run discreet (Array.getElem?_eq_getElem _) (poises.temporary charts (by omega) (by omega))

theorem Reachable.scopes (h : m.Reachable Doubles) (discreet : ∀ f ∈ m.hosts, f.Discreet)
    (frames : m.current.frames = f :: rest) (charts : f.closure.Charts enclosing C) : m.Scopes f rest enclosing C := by
  have ordered := h.in_order
  have settled := h.scoped discreet
  obtain ⟨op, a, b, poises⟩ := ordered.poises frames
  have fits := poises.fits charts
  obtain ⟨depth, closed⟩ := poises.depths charts
  have minded := settled.minded m.running
  rw [show m.thread m.running = m.current from rfl, Thread.Minded, frames] at minded
  obtain ⟨inherited, live⟩ := minded.2.2.1 C ⟨enclosing, charts.suits⟩
  have shares (l : Local) (alive : (C f.ip).scope.Live l) : ∃ x, m.current.stack[f.base + l.slot]? = some x ∧
      m.current.captures[f.captureBase + l.closurePos]? = some x := by
    obtain ⟨inside, -, same⟩ := live l alive
    exact ⟨_, Array.getElem?_eq_getElem inside, by rw [same, Array.getElem?_eq_getElem inside]⟩
  refine
    { view := closed
      inherited := fun i inside => (inherited i inside).2
      shares := shares
      apart := fun l _ x found id i slot => settled.separate.single _ _ _ _ x slot found
      distinct := fun l l' alive alive' same => ?_
      noted := fun op' a' b' next => ?_
      follows := fun op' a' b' next ip mem l alive => ?_
      visible := fun some' => names_environment (fits.live some')
      accesses := fun name noted => poises.accesses charts noted
      declares := fun names noted => ?_
      makes := fun g noted => ?_ }
  · obtain ⟨x, found, -⟩ := shares l alive
    have same := (settled.separate.single m.running _ m.running _ x found (same ▸ found)).2
    exact Ascending.eq_of_slot fits.ascending alive.1 alive'.1 (by omega)
  · rw [poises.instruction] at next
    cases next
    exact CodeUnit.Names.noted fits.names
  · rw [poises.instruction] at next
    cases next
    refine ((fits.passes ip mem).live l alive).imp And.left fun bound => ?_
    exact (CodeUnit.Names.noted fits.names).2.1 bound.1
  · have stands := fits.names
    rw [noted] at stands
    obtain ⟨rfl, rfl⟩ := stands
    obtain ⟨m', cells, step, store, current, same, length, environment⟩ := poises.declares ordered charts noted
    refine ⟨m', cells, step, store, current, length, environment, fun m₀ reach run x mem => ?_⟩
    rw [same] at mem
    exact reach.fresh run discreet poises charts (Array.mem_toList_iff.1 mem)
  · obtain ⟨k, step, captured, charted, outer⟩ := poises.makes settled charts noted
    exact ⟨k, step, captured, charted, outer⟩

/-- In every run in which the protected call is never applied to itself, and whose host gets at cells only through
closures, variables are those that lexical scoping names: the frame that runs is one of compiled code, whatever it
does about names it does as they are scoped, and since the last thing that happened all live locals have kept their
cells. -/
theorem Reachable.lexically_scoped (h : m.Reachable Doubles) (discreet : ∀ f ∈ m.hosts, f.Discreet)
    (frames : m.current.frames = f :: rest) :
    f.closure.Compiled ∧ (∀ enclosing C, f.closure.Charts enclosing C → m.Scopes f rest enclosing C) ∧
      ∀ m₀ : Machine, m₀.Reachable Doubles → m₀.Happens Doubles m → m₀.Keeps m := by
  refine ⟨h.compiled (fun _ ordered slips => slips.doubles ordered) discreet (.inr ⟨m.running, f, ?_, rfl⟩), fun enclosing C charts => h.scopes discreet frames charts,
    fun m₀ reach next => next.keeps reach discreet⟩
  rw [show m.thread m.running = m.current from rfl, frames]
  exact List.mem_cons_self

/-- A chunk that is about to declare a local, of which it makes a closure then. -/
theorem Reachable.lexically_scoped_local : ∃ (m : Machine) (f : Frame), m.Reachable Doubles ∧
    (∀ f ∈ m.hosts, f.Discreet) ∧ m.current.frames = [f] ∧ m.next? = some (.closeVars, 1, 0) ∧
    f.closure.Compiled ∧ (∀ enclosing C, f.closure.Charts enclosing C → m.Scopes f [] enclosing C) ∧
      ∀ m₀ : Machine, m₀.Reachable Doubles → m₀.Happens Doubles m → m₀.Keeps m := by
  obtain ⟨u, compiled, first, second, constant⟩ :
      ∃ u, Compiler.compileSource "local x return function() return x end" "test" = .ok u ∧
        u.code[0]? = some (Instruction.make .loadK 0 0) ∧ u.code[1]? = some (Instruction.make .closeVars 1 0) ∧
        u.constants[0]? = some Value.nil := Compiler.compileSource_of_any (by decide +kernel)
  obtain ⟨m, reach, discreet, running, threads⟩ := (Reachable.start {}).launch_discreet (Fresh.machine (by decide))
    (Library.machine_discreet {}) compiled []
  have opcode : (Instruction.make .loadK 0 0).opcode? = some .loadK := Instruction.opcode?_make ..
  have opcode' : (Instruction.make .closeVars 1 0).opcode? = some .closeVars := Instruction.opcode?_make ..
  have inside : m.running < m.threads.size := by simp [running, threads]
  have frames : m.current.frames = [⟨⟨u, #[]⟩, 0, 0, 0, 0, 0, false⟩] := by
    simp [Machine.current, thread, threads, running, Thread.ofChunk]
  have silent : ¬m.Doubles := by
    rintro ⟨callee, args, want, rest, asked, -⟩
    simp [nextCall?, next?, frames, first, opcode, request?, Opcode.arithmetic?] at asked
  obtain ⟨op, a, b, poises⟩ := reach.in_order.poises frames
  obtain ⟨rfl, rfl, rfl⟩ : op = .loadK ∧ a = 0 ∧ b = 0 := by
    have same := poises.instruction
    simp only [next?, frames, List.head?_cons, Option.bind_eq_bind, Option.bind_some, first, opcode] at same
    cases same
    exact ⟨rfl, rfl, rfl⟩
  have stepped : Exec.step m = .ok none (m.advance.push .nil) := by
    rw [poises.performs (by simp)]
    simp only [Exec.perform, Exec.constant, constant, Exec.bind_apply, Exec.pure_apply, Exec.push_apply]
  have after : (m.advance.push .nil).current.frames = [⟨⟨u, #[]⟩, 1, 0, 0, 0, 0, false⟩] := by
    have inside' : m.advance.running < m.advance.threads.size := by simpa [advance] using inside
    rw [push_eq_pushResults, current_pushResults inside', poises.thread]
    rfl
  have next : (m.advance.push .nil).next? = some (.closeVars, 1, 0) := by
    simp only [next?, after, List.head?_cons, Option.bind_eq_bind, Option.bind_some, second, opcode']
    rfl
  have discreet' : ∀ f ∈ (m.advance.push .nil).hosts, f.Discreet := by
    rw [reach.in_order.hosts_moves (.step stepped)]
    exact discreet
  have reach := reach.step silent stepped
  exact ⟨_, _, reach, discreet', after, next, reach.lexically_scoped discreet' after⟩

end Machine

end ScriptEngine
