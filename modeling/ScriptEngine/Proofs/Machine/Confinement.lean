import ScriptEngine.Proofs.Machine.Clear

/-!
# Where multi-values are

A host that hands the machine no multi-value of its own never meets one (`Supplied`): from its start the
machine is confined, whatever programs run on it (`Supplied.confined`), as long as the protected call is not
applied to itself. So a multi-value is nowhere but in the first slot of a frame, as its argument list, and
in the slot where an instruction has just left it, from which the next one takes it
(`Supplied.multi_confined`).
-/

set_option linter.dupNamespace false

namespace ScriptEngine

/-- From the address on, the first instruction that does not just release closed variables expands what is
on top. -/
inductive Expanded (code : Array Instruction) : Nat → Prop where
  | here {ip : Nat} {ins : Instruction} {op : Opcode} (here : code[ip]? = some ins)
      (opcode : ins.opcode? = some op) (expands : op.expands ins.a.toNat ins.b.toNat = true)
      (other : op ≠ .popClosed) : Expanded code ip
  | later {ip : Nat} {ins : Instruction} (here : code[ip]? = some ins) (opcode : ins.opcode? = some .popClosed)
      (next : Expanded code (ip + 1)) : Expanded code ip

/-- What has been left on top is expanded. -/
theorem Layout.Recorded.expanded {upvalues : Nat} {u : CodeUnit} {record : Verifier.Record}
    {captured : Nat → Nat} (h : Layout.Recorded upvalues u record captured) {ip : Nat} {d : Depths}
    (known : record.at? ip = some d) (loose : Loose u.code record.at? ip) : Expanded u.code ip := by
  obtain ⟨ins, op, here, opcode, -, next⟩ := h.legal ip d known
  have inside := (Array.getElem?_eq_some_iff.1 here).1
  by_cases passes : op = .popClosed
  · subst passes
    exact .later here opcode (h.expanded (next _ (Verifier.mem_successors.2 (Or.inl ⟨rfl, rfl⟩)))
      (loose.passed here opcode))
  · exact .here here opcode ((h.tame ip ins op d here opcode known).top loose) passes
termination_by u.code.size - ip

namespace Machine

variable {m m' : Machine}

/-! ## Setting a machine up -/

namespace Confined

variable {Runs : Store → Thread → Prop}

theorem setGlobal (h : m.Confined Runs) (name : String) {v : Value} (hv : v.isPlain = true) :
    (m.setGlobal name v).Confined Runs := ⟨(h.plain.setGlobal name hv).plain, h.current, h.others⟩

theorem addHost (h : m.Confined Runs) {f : HostFunction} (hf : f.Plain) : (m.addHost f).2.Confined Runs := by
  refine ⟨⟨h.plain.store, h.plain.globals, fun g mem => ?_, h.plain.threads⟩, h.current, h.others⟩
  rcases Array.mem_push.1 mem with mem | rfl
  · exact h.plain.hosts g mem
  · exact hf

theorem register (h : m.Confined Runs) {f : HostFunction} (hf : f.Plain) : (m.register f).Confined Runs :=
  (h.addHost hf).setGlobal _ rfl

/-- The store changes, but no cell comes to hold a multi-value. -/
theorem withStore (h : m.Confined Thread.Clear) {s : Store} (hs : s.Plain ∧ m.store.Keeps s) :
    ({ m with store := s } : Machine).Confined Thread.Clear :=
  ⟨(h.plain.withStore hs).plain, h.current.mono hs.2, fun id inside other => (h.others id inside other).mono hs.2⟩

theorem addLibrary (h : m.Confined Thread.Clear) (name : String)
    {fields : List (String × Value)} (plain : ∀ field ∈ fields, field.2.isPlain = true) :
    (Library.addLibrary m name fields).Confined Thread.Clear := by
  have filled : Table.IsPlain (fields.foldl (fun (t : Table) field => t.setString field.1 field.2) {}) := by
    have empty := Table.isPlain_empty
    generalize ({} : Table) = t at empty
    induction fields generalizing t with
    | nil => exact empty
    | cons field fields ih =>
      obtain ⟨hv, rest⟩ := List.forall_mem_cons.1 plain
      exact ih rest _ (empty.assign (.string field.1) rfl hv)
  have made := h.plain.store.pushTable Table.isPlain_empty
  refine (h.withStore (s := m.store.newTable.2.setTable m.store.newTable.1 _)
    ⟨⟨h.plain.store.cells, fun t mem => ?_, h.plain.store.closures⟩, .of_cells rfl⟩).setGlobal name
      (v := .table m.store.tables.size) rfl
  rcases Array.mem_or_eq_of_mem_setIfInBounds mem with mem | rfl
  · exact made.1.tables t mem
  · exact filled

end Confined

/-- A new machine holds no multi-value. -/
theorem machine_confined (config : Config) : (Library.machine config).Confined Thread.Clear := by
  have blank : ({ config } : Machine).Confined Thread.Clear := by
    refine ⟨⟨⟨by simp, by simp, by simp⟩, fun name => ?_, by simp, fun id => ?_⟩, rfl, fun id inside other => ?_⟩
    · simp [global, Value.isPlain]
    · cases id with
      | zero => exact .empty
      | succ id => exact .empty
    · have inside : id < 1 := inside
      have other : id ≠ 0 := other
      omega
  have functions : ((Library.plainFunctions config).foldl Machine.register { config }).Confined Thread.Clear := by
    have plain := Library.plainFunctions_plain config
    generalize Library.plainFunctions config = fs at plain
    generalize ({ config } : Machine) = m at blank
    induction fs generalizing m with
    | nil => exact blank
    | cons f fs ih =>
      exact ih (fun g mem => plain g (List.mem_cons_of_mem _ mem)) _ (blank.register (plain f List.mem_cons_self))
  unfold Library.machine
  generalize (Library.plainFunctions config).foldl Machine.register { config } = k at functions
  have iterating := (functions.addHost (Library.ipairsIterator_plain config.maxChainDepth)).register
    (Library.ipairs_plain (rfl : (Value.host k.hosts.size "ipairs_iterator").isPlain = true))
  have paired := iterating.register (Library.pairs_plain (iterating.plain.globals "next"))
  refine .addLibrary (.addHost (.addLibrary (.setGlobal (.setGlobal paired _ rfl) _ rfl) _ ?_)
    Library.stringLength_plain) _ ?_
  · simp [Value.isPlain]
  · intro field mem
    rw [List.mem_singleton.1 mem]
    rfl

/-! ## Every state -/

/-- The states that a machine comes to without a step from a barred one while its host hands it no
multi-value: it sets the machine up with plain globals and functions, gives it compiled chunks, calls its
functions with plain arguments and lets it take steps; faults unwind to a handler. -/
inductive Supplied (Barred : Machine → Prop) : Machine → Prop where
  | start (config : Config) : Supplied Barred (Library.machine config)
  | register {m : Machine} {f : HostFunction} (h : Supplied Barred m) (honest : f.Honest) (plain : f.Plain) :
      Supplied Barred (m.register f)
  | setGlobal {m : Machine} (h : Supplied Barred m) (name : String) {v : Value} (plain : v.isPlain = true) :
      Supplied Barred (m.setGlobal name v)
  | chunk {m : Machine} {text label : String} {unit : CodeUnit} (h : Supplied Barred m)
      (compiled : Compiler.compileSource text label = .ok unit) :
      Supplied Barred { m with store := (m.store.newClosure ⟨unit, #[]⟩).2 }
  | takeOutput {m : Machine} (h : Supplied Barred m) :
      Supplied Barred { m with store := { m.store with output := "" } }
  | enter {m m' : Machine} {id : Nat} {closure : Closure} {args : List Value} (h : Supplied Barred m)
      (plain : Value.AllPlain args) (idle : m.waiting = []) (dead : (m.thread 0).frames = [])
      (found : m.store.closures[id]? = some closure)
      (entered : Exec.enter closure args 0 0 (m.modifyThread 0 fun _ => {}) = .ok () m') :
      Supplied Barred m'
  | host {m m' : Machine} {id : Nat} {args : List Value} (h : Supplied Barred m) (plain : Value.AllPlain args)
      (called : (∃ results, Exec.callHost id args m = .ok results m') ∨
        ∃ fault, Exec.callHost id args m = .error fault m') : Supplied Barred m'
  | step {m m' : Machine} {r : Option (List Value)} (h : Supplied Barred m) (free : ¬Barred m)
      (step : Exec.step m = .ok r m') : Supplied Barred m'
  | fault {m m' : Machine} {fault : Fault} (h : Supplied Barred m) (free : ¬Barred m)
      (step : Exec.step m = .error fault m') : Supplied Barred (m'.unwind (m'.locate fault)).2

theorem Supplied.reachable {Barred : Machine → Prop} (h : m.Supplied Barred) : m.Reachable Barred := by
  induction h with
  | start config => exact .start config
  | register h honest plain ih => exact ih.register honest
  | setGlobal h name plain ih => exact ih.setGlobal name _
  | chunk h compiled ih => exact ih.chunk compiled
  | takeOutput h ih => exact ih.takeOutput
  | enter h plain idle dead found entered ih => exact ih.enter idle dead found entered
  | host h plain called ih => exact ih.host called
  | step h free step ih => exact ih.step free step
  | fault h free step ih => exact ih.fault free step

/-- A chunk is called with plain arguments on a machine on which nothing has run yet. -/
theorem Supplied.launch {Barred : Machine → Prop} (h : m.Supplied Barred) (fresh : m.Fresh)
    {text label : String} {u : CodeUnit} (compiled : Compiler.compileSource text label = .ok u)
    {args : List Value} (plain : Value.AllPlain args) :
    ∃ m' : Machine, m'.Supplied Barred ∧ m'.running = 0 ∧ m'.waiting = [] ∧
      m'.threads = #[.ofChunk u] ∧ m'.store.cells = #[.multi args] ∧ m'.globals = m.globals ∧
      m'.store.closures = m.store.closures.push ⟨u, #[]⟩ ∧ m'.config = m.config := by
  obtain ⟨m', entered, shape⟩ := fresh.enters u args
  have found : (m.store.closures.push ⟨u, #[]⟩)[m.store.closures.size]? = some ⟨u, #[]⟩ := by simp
  exact ⟨m', (h.chunk compiled).enter plain fresh.waiting (by simp [thread, fresh.threads]) found entered, shape⟩

/-- The host has the program's thread, on which nothing runs, call a closure with plain arguments. -/
theorem Confined.enter (h : m.Confined Thread.Clear) (order : m.Ordered Thread.Active) (idle : m.waiting = [])
    {id : Nat} {closure : Closure} {args : List Value} (plain : Value.AllPlain args)
    (found : m.store.closures[id]? = some closure)
    (entered : Exec.enter closure args 0 0 (m.modifyThread 0 fun _ => {}) = .ok () m') :
    m'.Confined Thread.Clear := by
  have program : m.running = 0 := by simpa [idle] using order.sane.bottom
  have same : (m.modifyThread 0 fun _ => {}) = m.modifyCurrent fun _ => {} := by rw [modifyCurrent, program]
  rw [same] at entered
  have blank : (m.modifyCurrent fun _ => {}).Ordered (· = {}) := order.dies rfl
  have cleared : (m.modifyCurrent fun _ => {}).Confined fun _ t => t = {} := h.dies order.sane fun _ => rfl
  have comes := Exec.enter_comes cleared.plain (cleared.plain.store.closures closure (Array.mem_of_getElem? found))
    plain 0 0
  rcases Exec.enter_cases blank.sane closure args 0 0 with ⟨-, failed⟩ | ⟨-, m'', done, alone, -, thread⟩
  · rw [entered] at failed
    cases failed
  · rw [entered] at done comes
    cases done
    rw [cleared.current] at thread
    refine cleared.alone alone comes.2 ?_
    rw [thread]
    exact (Thread.waits_empty _ 0).entered comes.2.keeps closure _ 0 []

/-- A function of the host has been called with plain arguments. -/
theorem Confined.host (h : m.Confined Thread.Clear) (sane : m.Sane) {id : Nat} {args : List Value}
    (plain : Value.AllPlain args) (called : (∃ results, Exec.callHost id args m = .ok results m') ∨
      ∃ fault, Exec.callHost id args m = .error fault m') : m'.Confined Thread.Clear := by
  have comes := Exec.callHost_comes h.plain id plain
  obtain ⟨m'', alone, same, which⟩ := Exec.callHost_cases sane id args
  have there : m' = m'' ∧ m.Flows m' := by
    rcases called with ⟨vs, called⟩ | ⟨fault, called⟩ <;> rw [called] at comes <;>
      rcases which with ⟨vs', done⟩ | ⟨fault', done⟩ <;> rw [called] at done <;> cases done <;>
        exact ⟨rfl, comes.2⟩
  obtain ⟨rfl, flows⟩ := there
  exact h.alone alone flows (same ▸ h.current.mono flows.keeps)

theorem locate_plain (m : Machine) {fault : Fault} (plain : fault.IsPlain) : (m.locate fault).IsPlain := by
  unfold Machine.locate
  split
  · exact plain.locate _ _
  · exact plain

/-- What the next instruction calls, and its arguments. -/
theorem Confined.nextCall_plain (h : m.Confined Thread.Clear) (order : m.Ordered Thread.Active) {callee : Value}
    {args : List Value} {want : Nat} (asked : m.nextCall? = some (callee, args, want)) :
    callee.isPlain = true ∧ Value.AllPlain args := by
  cases frames : m.current.frames with
  | nil => simp [nextCall?, next?, frames] at asked
  | cons f rest =>
    obtain ⟨op, a, b, poises⟩ := order.poises frames
    obtain ⟨captured, d, poised⟩ := poises.poised
    exact request_plain poised (h.advance_tidy order poises).1 (poises.handles poised).1
      (poises.asks.symm.trans asked)

/-- Every state of a machine whose host hands it no multi-value is confined. -/
theorem Supplied.confined (h : m.Supplied Doubles) : m.Ordered Thread.Active ∧ m.Confined Thread.Clear := by
  have ordered {k : Machine} (h : k.Supplied Doubles) : k.Ordered Thread.Active :=
    h.reachable.ordered fun m ordered slips => slips.doubles ordered
  refine ⟨ordered h, ?_⟩
  induction h with
  | start config => exact machine_confined config
  | register h honest plain ih => exact ih.register plain
  | setGlobal h name plain ih => exact ih.setGlobal name plain
  | chunk h compiled ih => exact ih.withStore (ih.plain.store.newClosure (by simp))
  | takeOutput h ih => exact ih.withStore ⟨⟨ih.plain.store.cells, ih.plain.store.tables, ih.plain.store.closures⟩,
      .of_cells rfl⟩
  | enter h plain idle dead found entered ih => exact ih.enter (ordered h) idle plain found entered
  | host h plain called ih => exact ih.host (ordered h).sane plain called
  | step h free step ih =>
    have after := ih.step (ordered h) free
    rw [step] at after
    exact after
  | fault h free step ih =>
    have after := ih.step (ordered h) free
    rw [step] at after
    have recoverable := error_ordered (ordered h) (fun slips => free (slips.doubles (ordered h))) step
    exact after.2.unwind (locate_plain _ after.1) recoverable

/-- The instruction before has left slot `i` of thread `id`, which runs, on top, by a call for all results or
as a copy of the frame's first slot, and the next one but for releases of closed variables expands it. -/
structure Passes (m : Machine) (id i : Nat) : Prop where
  running : id = m.running
  top : i + 1 = m.current.stack.size
  frame : ∃ f rest record, m.current.frames = f :: rest ∧ Verifier.depths f.closure.unit = .ok record ∧
    Loose f.closure.unit.code record.at? f.ip ∧ Expanded f.closure.unit.code f.ip

theorem passes_of_loose (order : m.Ordered Thread.Active) {f : Frame} {rest : List Frame}
    (frames : m.current.frames = f :: rest) (isLoose : f.IsLoose) {i : Nat}
    (top : i + 1 = m.current.stack.size) : m.Passes m.running i := by
  have upright := order.current.2
  rw [frames] at upright
  obtain ⟨record, captured, recorded, loose⟩ := isLoose
  obtain ⟨record', _, d, recorded', here, -⟩ := upright.rests
  cases recorded.depths.symm.trans recorded'.depths
  exact ⟨rfl, top, f, rest, record, frames, recorded.depths, loose, recorded.expanded here loose⟩

/-- A stack slot with a multi-value is the first one of a frame, or the value is passed on. -/
theorem Confined.slot (h : m.Confined Thread.Clear) (order : m.Ordered Thread.Active) {id i cell : Nat}
    (found : (m.thread id).stack[i]? = some cell) (multi : ¬m.store.HasPlain cell) :
    (∃ f ∈ (m.thread id).frames, f.base = i) ∨ m.Passes id i := by
  have low := (Array.getElem?_eq_some_iff.1 found).1
  by_cases itself : id = m.running
  · subst itself
    have clear : Thread.Clear m.store (m.thread m.running) := h.current
    unfold Thread.Clear at clear
    cases frames : (m.thread m.running).frames with
    | nil =>
      rw [frames] at clear
      dsimp only at clear
      omega
    | cons f rest =>
      rw [frames] at clear
      rcases Nat.lt_trichotomy i f.base with below | rfl | above
      · obtain ⟨g, mem, first⟩ := clear.2.first below found multi
        exact Or.inl ⟨g, List.mem_cons_of_mem _ mem, first⟩
      · exact Or.inl ⟨f, List.mem_cons_self, rfl⟩
      · obtain ⟨isLoose, top⟩ := (clear.1 i cell above found).resolve_left multi
        exact Or.inr (passes_of_loose order frames isLoose top)
  · by_cases inside : id < m.threads.size
    · exact Or.inl (Clears.first (h.others id inside itself) low found multi)
    · have none' : m.thread id = {} := by simp [thread, Nat.le_of_not_lt inside]
      rw [none'] at low
      cases low

/-- While a host hands the machine no multi-value, and the protected call is not applied to itself, no
multi-value is held by a global, as a key or value of a table, by a cell that a frame has closed over for its
local variables, by an upvalue, by the payload of a fault, or as an argument that a function of the host is
called with, and none is inside another one. On the stacks one is only in the first slot of a frame, or where
an instruction has left it for the next one to expand. -/
theorem Supplied.multi_confined (h : m.Supplied Doubles) :
    (∀ name, (m.global name).isPlain = true) ∧
    (∀ t ∈ m.store.tables, t.IsPlain) ∧
    (∀ id, (m.thread id).Captured m.store) ∧
    (∀ c ∈ m.store.closures, ∀ cell ∈ c.upvalues, (m.store.cell cell).isPlain = true) ∧
    (∀ v ∈ m.store.cells, v.IsFlat) ∧
    (∀ fault m', ¬m.Doubles → Exec.step m = .error fault m' → fault.IsPlain) ∧
    (∀ callee args want id name given, m.nextCall? = some (callee, args, want) →
      m.finalTarget callee args = .ok (.host id name, given) → Value.AllPlain given) ∧
    ∀ id i cell, (m.thread id).stack[i]? = some cell → (m.store.cell cell).isPlain = false →
      (∃ f ∈ (m.thread id).frames, f.base = i) ∨ m.Passes id i := by
  obtain ⟨order, confined⟩ := h.confined
  have plain := confined.plain
  refine ⟨plain.globals, plain.store.tables, plain.threads,
    fun c mem cell mem' => (plain.store.closures c mem cell mem').cell, plain.store.cells,
    fun fault m' free failed => ?_, fun callee args want id name given asked target => ?_,
    fun id i cell found multi => confined.slot order found fun plain => ?_⟩
  · have after := confined.step order free
    rw [failed] at after
    exact after.1
  · obtain ⟨hc, hargs⟩ := confined.nextCall_plain order asked
    have final := plain.finalTarget hc hargs
    rw [target] at final
    exact final.2
  · cases multi.symm.trans plain.cell

/-- A chunk that is about to return its arguments, whose copy lies on top of their list. -/
theorem Supplied.multi_confined_arguments : ∃ m : Machine, m.Supplied Doubles ∧
    m.current.stack = #[0, 1] ∧ m.store.cells = #[.multi [.nil, .nil], .multi [.nil, .nil]] ∧ m.Passes 0 1 := by
  obtain ⟨u, compiled, code⟩ : ∃ u, Compiler.compileSource "return ..." "test" = .ok u ∧
      u.code[0]? = some (Instruction.make .getStack 1 0) := Compiler.compileSource_of_any (by decide +kernel)
  have opcode : (Instruction.make .getStack 1 0).opcode? = some .getStack := Instruction.opcode?_make ..
  have started : (Library.machine {}).Supplied Doubles := .start {}
  have given : Value.AllPlain [.nil, .nil] := by simp [Value.AllPlain, Value.isPlain]
  obtain ⟨m, supplied, running, -, threads, cells, -⟩ := started.launch (.machine (by decide)) compiled given
  have inside : m.running < m.threads.size := by simp [running, threads]
  have thread : m.current = .ofChunk u := by simp [Machine.current, Machine.thread, threads, running]
  have frames : m.current.frames = [⟨⟨u, #[]⟩, 0, 0, 0, 0, 0, false⟩] := by rw [thread]; rfl
  have silent : ¬m.Doubles := by
    rintro ⟨callee, args, want, rest, asked, -⟩
    simp [nextCall?, next?, frames, code, opcode, request?, Opcode.arithmetic?] at asked
  have advanced : m.advance.current = { m.current with frames := [⟨⟨u, #[]⟩, 1, 0, 0, 0, 0, false⟩] } :=
    current_advance inside frames
  have found : m.advance.current.cell? 1 = some 0 := by rw [advanced, thread]; rfl
  have stepped : Exec.step m = .ok none (m.advance.push (.multi [.nil, .nil])) := by
    have next : m.next? = some (.getStack, 1, 0) := by
      simp [next?, frames, code, opcode]
      decide
    rw [(step_eq frames next).2 (by decide)]
    simp only [Exec.perform, Exec.bind_apply, Exec.peek_apply found, Exec.push_apply, Exec.pure_apply]
    rw [show m.advance.store.cell 0 = .multi [.nil, .nil] by
      rw [advance, store_modifyCurrent, Store.cell, cells]
      rfl]
  have supplied' := supplied.step silent stepped
  have stack : (m.advance.push (.multi [.nil, .nil])).current.stack = #[0, 1] := by
    rw [push_eq_pushResults, current_pushResults (by simpa [advance] using inside), advanced, thread]
    simp [Thread.withCells, Thread.ofChunk, slots, advance, cells]
  have frames' : (m.advance.push (.multi [.nil, .nil])).current.frames = [⟨⟨u, #[]⟩, 1, 0, 0, 0, 0, false⟩] := by
    rw [push_eq_pushResults, current_pushResults (by simpa [advance] using inside), advanced]
    rfl
  have cells' : (m.advance.push (.multi [.nil, .nil])).store.cells = #[.multi [.nil, .nil], .multi [.nil, .nil]] := by
    simp [push, pushOn, Store.newCell, advance, cells]
  obtain ⟨-, -, -, -, -, -, -, slot⟩ := supplied'.multi_confined
  refine ⟨_, supplied', stack, cells', ?_⟩
  have running' : (m.advance.push (.multi [.nil, .nil])).running = 0 := running
  have which := slot 0 1 1 (by rw [← running']; exact congrArg (·[1]?) stack) (by simp [Store.cell, cells', Value.isPlain])
  refine which.resolve_left fun opened => ?_
  obtain ⟨f, mem, base⟩ := opened
  rw [← running'] at mem
  rw [List.mem_singleton.1 (frames' ▸ mem : f ∈ [_])] at base
  cases base

end Machine

end ScriptEngine
