import ScriptEngine.Engine
import ScriptEngine.Proofs.Machine.Steps

/-!
# Reachable machines

The states that a machine can come to: a host sets it up, gives it compiled chunks and lets it take
steps. All of them are in order (`Reachable.ordered`) as long as no fault slips, so in all of them the
depths at run time are those that the verifier records (`Reachable.depths_recorded`). A machine on which
nothing has run yet (`Fresh`) can be given a chunk and started; what it looks like then is known without
looking into its library (`Reachable.launch`).
-/

set_option linter.dupNamespace false

namespace ScriptEngine

/-! ## The base library is honest -/

/-- The action makes no closures. -/
def HostAction.Keeps {α : Type} (action : HostAction α) : Prop :=
  ∀ s, (action.run.run s).2.closures = s.closures

namespace HostAction

variable {α β : Type}

theorem keeps_pure (a : α) : Keeps (pure a : HostAction α) := fun _ => rfl

theorem keeps_throw (fault : Fault) : Keeps (throw fault : HostAction α) := fun _ => rfl

theorem keeps_get : Keeps (get : HostAction Store) := fun _ => rfl

theorem keeps_modify {f : Store → Store} (h : ∀ s, (f s).closures = s.closures) :
    Keeps (modify f : HostAction PUnit) := h

theorem keeps_ofExcept (e : Except Fault α) : Keeps (MonadExcept.ofExcept e : HostAction α) := by
  cases e <;> exact fun _ => rfl

theorem keeps_bind {x : HostAction α} {f : α → HostAction β} (first : x.Keeps)
    (second : ∀ a, (f a).Keeps) : (x >>= f).Keeps := by
  intro s
  have kept := first s
  show (ExceptT.bindCont f (x.run.run s).1 (x.run.run s).2).2.closures = _
  generalize x.run.run s = r at kept ⊢
  rcases r with ⟨_ | a, s'⟩
  · exact kept
  · exact (second a s').trans kept

theorem keeps_write (id : Nat) (key value : Value) : (write id key value).Keeps :=
  keeps_bind (keeps_ofExcept _) fun _ => keeps_modify fun _ => rfl

end HostAction

namespace HostFunction

/-- A function that makes no closures at all is honest. -/
theorem honest_of_keeps {f : HostFunction} (h : ∀ args, (f.run args).Keeps) : f.Honest := by
  intro args s c mem
  rw [h args s] at mem
  exact Or.inl mem

end HostFunction

namespace Library

open HostAction

theorem keeps_tableArgument (function : String) (args : List Value) (position : Nat) :
    (tableArgument function args position).Keeps := by
  unfold tableArgument
  split
  · exact keeps_pure _
  · exact keeps_throw _

/-- The one function that makes closures makes them of compiled chunks. -/
theorem load_honest : HostFunction.Honest ⟨"load", load⟩ := by
  intro args s c mem
  have refused : ∀ fault : Fault, c ∈ ((throw fault : HostAction (List Value)).run.run s).2.closures →
      c ∈ s.closures ∨ c.IsChunk := fun _ => Or.inl
  simp only [load] at mem
  cases head : args.head? with
  | none =>
    rw [head] at mem
    exact refused _ mem
  | some v =>
    rw [head] at mem
    cases v with
    | string text =>
      cases compiled : Compiler.compileSource text "load" with
      | error fault =>
        simp only [compiled] at mem
        exact Or.inl mem
      | ok unit =>
        simp only [compiled] at mem
        rcases Array.mem_push.1 (show c ∈ s.closures.push ⟨unit, #[]⟩ from mem) with mem | rfl
        · exact Or.inl mem
        · exact Or.inr ⟨rfl, text, "load", compiled⟩
    | _ => exact refused _ mem

theorem plainFunctions_honest (config : Config) : ∀ f ∈ plainFunctions config, f.Honest := by
  intro f mem
  simp only [plainFunctions, List.mem_cons, List.not_mem_nil, or_false] at mem
  rcases mem with rfl | rfl | rfl | rfl | rfl | rfl | rfl | rfl | rfl | rfl | rfl | rfl | rfl | rfl | rfl
  case inr.inr.inr.inr.inr.inr.inr.inr.inr.inr.inr.inr.inr.inl => exact load_honest
  all_goals
    refine HostFunction.honest_of_keeps fun args => ?_
    simp only [print, type, tostring, tonumber, assert, error, select, rawget, rawset, rawequal,
      setmetatable, getmetatable, next, unpack]
    with_reducible
      repeat' first
        | exact keeps_pure _ | exact keeps_throw _ | exact keeps_get | exact keeps_ofExcept _
        | exact keeps_write _ _ _ | exact keeps_tableArgument _ _ _ | exact keeps_modify fun _ => rfl
        | refine keeps_bind ?_ fun _ => ?_ | split

theorem ipairsIterator_honest (chainDepth : Nat) :
    HostFunction.Honest ⟨"ipairs_iterator", ipairsIterator chainDepth⟩ :=
  HostFunction.honest_of_keeps fun _ => keeps_bind (keeps_tableArgument _ _ _) fun _ =>
    keeps_bind keeps_get fun _ => keeps_bind (keeps_ofExcept _) fun _ => keeps_pure _

theorem ipairs_honest (iterator : Value) : HostFunction.Honest ⟨"ipairs", ipairs iterator⟩ :=
  HostFunction.honest_of_keeps fun _ => keeps_bind (keeps_tableArgument _ _ _) fun _ => keeps_pure _

theorem pairs_honest (next : Value) : HostFunction.Honest ⟨"pairs", pairs next⟩ :=
  HostFunction.honest_of_keeps fun _ => keeps_bind (keeps_tableArgument _ _ _) fun _ => keeps_pure _

theorem stringLength_honest : HostFunction.Honest ⟨"string.len", stringLength⟩ := by
  refine HostFunction.honest_of_keeps fun args => ?_
  simp only [stringLength]
  split
  · exact keeps_pure _
  · exact keeps_throw _

end Library

/-- The thread of a chunk that has just been called with nothing else active. -/
def Thread.ofChunk (u : CodeUnit) : Thread where
  stack := #[0]
  frames := [{ closure := ⟨u, #[]⟩, ip := 0, base := 0, captureBase := 0, want := 0 }]

namespace Machine

variable {m m' : Machine}

/-! ## Setting a machine up -/

theorem Ordered.setGlobal (h : m.Ordered Thread.Active) (name : String) (v : Value) :
    (m.setGlobal name v).Ordered Thread.Active :=
  ⟨⟨h.sane.closures, h.sane.hosts, h.sane.bound, h.sane.distinct, h.sane.bottom⟩, h.current, h.others,
    h.alive⟩

theorem Ordered.addHost (h : m.Ordered Thread.Active) {f : HostFunction} (honest : f.Honest) :
    (m.addHost f).2.Ordered Thread.Active := by
  refine ⟨⟨h.sane.closures, fun g mem => ?_, h.sane.bound, h.sane.distinct, h.sane.bottom⟩, h.current,
    h.others, h.alive⟩
  rcases Array.mem_push.1 mem with mem | rfl
  · exact h.sane.hosts g mem
  · exact honest

theorem Ordered.register (h : m.Ordered Thread.Active) {f : HostFunction} (honest : f.Honest) :
    (m.register f).Ordered Thread.Active :=
  (h.addHost honest).setGlobal _ _

/-- Changing the store, as long as new closures fit. -/
theorem Ordered.withStore (h : m.Ordered Thread.Active) {s : Store}
    (closures : ∀ c ∈ s.closures, c ∈ m.store.closures ∨ c.Fits) :
    ({ m with store := s } : Machine).Ordered Thread.Active :=
  h.alone (.store s fun c mem => (closures c mem).elim (h.sane.closures c) id) h.current

theorem Ordered.addLibrary (h : m.Ordered Thread.Active) (name : String)
    (fields : List (String × Value)) : (Library.addLibrary m name fields).Ordered Thread.Active :=
  (h.withStore (s := m.store.newTable.2.setTable m.store.newTable.1 _) fun _ mem => Or.inl mem).setGlobal
    _ _

/-- A new machine is in order. -/
theorem machine_ordered (config : Config) : (Library.machine config).Ordered Thread.Active := by
  have blank : ({ config } : Machine).Ordered Thread.Active := by
    refine ⟨⟨by simp, by simp, by simp, by simp, rfl⟩, ⟨rfl, rfl⟩, ?_, by simp⟩
    intro id inside other
    have inside : id < 1 := inside
    have other : id ≠ 0 := other
    omega
  have plain : ((Library.plainFunctions config).foldl Machine.register
      { config }).Ordered Thread.Active := by
    have honest := Library.plainFunctions_honest config
    generalize Library.plainFunctions config = fs at honest
    generalize ({ config } : Machine) = m at blank
    induction fs generalizing m with
    | nil => exact blank
    | cons f fs ih =>
      exact ih (fun g mem => honest g (List.mem_cons_of_mem _ mem)) _
        (blank.register (honest f List.mem_cons_self))
  exact .addLibrary (.addHost (.addLibrary (.setGlobal (.setGlobal (.register (.register
    (.addHost plain (Library.ipairsIterator_honest _)) (Library.ipairs_honest _))
    (Library.pairs_honest _)) _ _) _ _) _ _) Library.stringLength_honest) _ _

/-! ## Every state -/

/-- The states that a machine comes to without a step from a barred one: a host sets it up, gives it
compiled chunks, calls its functions and lets it take steps; faults unwind to a handler. -/
inductive Reachable (Barred : Machine → Prop) : Machine → Prop where
  | start (config : Config) : Reachable Barred (Library.machine config)
  | register {m : Machine} {f : HostFunction} (h : Reachable Barred m) (honest : f.Honest) :
      Reachable Barred (m.register f)
  | setGlobal {m : Machine} (h : Reachable Barred m) (name : String) (v : Value) :
      Reachable Barred (m.setGlobal name v)
  | chunk {m : Machine} {text label : String} {unit : CodeUnit} (h : Reachable Barred m)
      (compiled : Compiler.compileSource text label = .ok unit) :
      Reachable Barred { m with store := (m.store.newClosure ⟨unit, #[]⟩).2 }
  | takeOutput {m : Machine} (h : Reachable Barred m) :
      Reachable Barred { m with store := { m.store with output := "" } }
  | enter {m m' : Machine} {id : Nat} {closure : Closure} {args : List Value} (h : Reachable Barred m)
      (idle : m.waiting = []) (dead : (m.thread 0).frames = [])
      (found : m.store.closures[id]? = some closure)
      (entered : Exec.enter closure args 0 0 (m.modifyThread 0 fun _ => {}) = .ok () m') :
      Reachable Barred m'
  | host {m m' : Machine} {id : Nat} {args : List Value} (h : Reachable Barred m)
      (called : (∃ results, Exec.callHost id args m = .ok results m') ∨
        ∃ fault, Exec.callHost id args m = .error fault m') : Reachable Barred m'
  | step {m m' : Machine} {r : Option (List Value)} (h : Reachable Barred m) (free : ¬Barred m)
      (step : Exec.step m = .ok r m') : Reachable Barred m'
  | fault {m m' : Machine} {fault : Fault} (h : Reachable Barred m) (free : ¬Barred m)
      (step : Exec.step m = .error fault m') : Reachable Barred (m'.unwind (m'.locate fault)).2

/-! ## Starting a program -/

/-- Nothing has run on the machine yet, and its limits let something run. -/
structure Fresh (m : Machine) : Prop where
  running : m.running = 0
  waiting : m.waiting = []
  threads : m.threads = #[{}]
  cells : m.store.cells = #[]
  room : 0 < m.config.maxCallDepth ∧ 0 < m.config.maxStack

namespace Fresh

theorem setGlobal (h : m.Fresh) (name : String) (v : Value) : (m.setGlobal name v).Fresh :=
  ⟨h.running, h.waiting, h.threads, h.cells, h.room⟩

theorem addHost (h : m.Fresh) (f : HostFunction) : (m.addHost f).2.Fresh :=
  ⟨h.running, h.waiting, h.threads, h.cells, h.room⟩

theorem register (h : m.Fresh) (f : HostFunction) : (m.register f).Fresh :=
  (h.addHost f).setGlobal _ _

theorem addLibrary (h : m.Fresh) (name : String) (fields : List (String × Value)) :
    (Library.addLibrary m name fields).Fresh :=
  ⟨h.running, h.waiting, h.threads, h.cells, h.room⟩

/-- A machine with the base library. -/
theorem machine {config : Config} (room : 0 < config.maxCallDepth ∧ 0 < config.maxStack) :
    (Library.machine config).Fresh := by
  have plain : ((Library.plainFunctions config).foldl Machine.register { config }).Fresh := by
    have start : ({ config } : Machine).Fresh := ⟨rfl, rfl, rfl, rfl, room⟩
    generalize Library.plainFunctions config = fs
    generalize ({ config } : Machine) = m at start
    induction fs generalizing m with
    | nil => exact start
    | cons f fs ih => exact ih _ (start.register f)
  exact .addLibrary (.addHost (.addLibrary (.setGlobal (.setGlobal (.register (.register
    (.addHost plain _) _) _) _ _) _ _) _ _) _) _ _

end Fresh

@[simp] theorem config_setGlobal (m : Machine) (name : String) (v : Value) :
    (m.setGlobal name v).config = m.config := rfl

theorem config_machine (config : Config) : (Library.machine config).config = config := rfl

theorem global_setGlobal_self (m : Machine) (name : String) {v : Value} (some' : v.isNil = false) :
    (m.setGlobal name v).global name = v := by
  simp [setGlobal, global, some']

theorem global_setGlobal_ne (m : Machine) {name other : String} (ne : name ≠ other) (v : Value) :
    (m.setGlobal other v).global name = m.global name := by
  unfold setGlobal global
  split <;> simp [Std.HashMap.getD_insert, Std.HashMap.getD_erase, Ne.symm ne]

/-- A chunk can be called on a machine on which nothing has run yet. -/
theorem Fresh.enters (fresh : m.Fresh) (u : CodeUnit) (args : List Value) :
    ∃ m', Exec.enter ⟨u, #[]⟩ args 0 0
        (({ m with store := (m.store.newClosure ⟨u, #[]⟩).2 } : Machine).modifyThread 0 fun _ => {}) = .ok () m' ∧
      m'.running = 0 ∧ m'.waiting = [] ∧ m'.threads = #[.ofChunk u] ∧ m'.store.cells = #[.multi args] ∧
      m'.globals = m.globals ∧ m'.store.closures = m.store.closures.push ⟨u, #[]⟩ ∧ m'.config = m.config := by
  obtain ⟨running, waiting, threads, cells, depth, room⟩ := fresh
  generalize given : ({ m with store := (m.store.newClosure ⟨u, #[]⟩).2 } : Machine) = k
  have same : k.running = 0 ∧ k.waiting = [] ∧ k.threads = #[{}] ∧ k.store.cells = #[] ∧
      k.globals = m.globals ∧ k.store.closures = m.store.closures.push ⟨u, #[]⟩ ∧
      k.config = m.config := by
    subst given
    exact ⟨running, waiting, threads, cells, rfl, rfl, rfl⟩
  obtain ⟨running, waiting, threads, cells, globals, closures, config⟩ := same
  have program : k.modifyThread 0 (fun _ => {}) = k := by simp [modifyThread_of_eq, thread, threads]
  have current : k.current = {} := by simp [Machine.current, thread, threads, running]
  have free : ¬(k.config.maxCallDepth ≤ (Thread.frames {}).length ∨
      k.config.maxStack ≤ (Thread.stack {}).size) := by
    simp only [config, List.length_nil, List.size_toArray]
    omega
  rw [program]
  simp only [Exec.enter, Exec.bind_apply, Exec.get_apply, current, if_neg free]
  refine ⟨_, rfl, running, waiting, ?_, ?_, globals, closures, config⟩
  · simp [push, pushOn, Store.newCell, modifyCurrent, modifyThread, threads, running, cells,
      Thread.ofChunk]
  · simp [push, pushOn, Store.newCell, cells]

/-- A chunk is called on a machine on which nothing has run yet. -/
theorem Reachable.launch {Barred : Machine → Prop} (h : m.Reachable Barred) (fresh : m.Fresh)
    {text label : String} {u : CodeUnit} (compiled : Compiler.compileSource text label = .ok u)
    (args : List Value) :
    ∃ m' : Machine, m'.Reachable Barred ∧ m'.running = 0 ∧ m'.waiting = [] ∧
      m'.threads = #[.ofChunk u] ∧ m'.store.cells = #[.multi args] ∧ m'.globals = m.globals ∧
      m'.store.closures = m.store.closures.push ⟨u, #[]⟩ ∧ m'.config = m.config := by
  obtain ⟨m', entered, shape⟩ := fresh.enters u args
  have found : (m.store.closures.push ⟨u, #[]⟩)[m.store.closures.size]? = some ⟨u, #[]⟩ := by simp
  exact ⟨m', (h.chunk compiled).enter fresh.waiting (by simp [thread, fresh.threads]) found entered, shape⟩

/-! ## Order -/

/-- The host lets the program's thread, on which nothing runs, call a closure. -/
theorem Ordered.enter (h : m.Ordered Thread.Active) (idle : m.waiting = []) {id : Nat}
    {closure : Closure} {args : List Value} (found : m.store.closures[id]? = some closure)
    (entered : Exec.enter closure args 0 0 (m.modifyThread 0 fun _ => {}) = .ok () m') :
    m'.Ordered Thread.Active := by
  have program : m.running = 0 := by simpa [idle] using h.sane.bottom
  have same : (m.modifyThread 0 fun _ => {}) = m.modifyCurrent fun _ => {} := by
    rw [modifyCurrent, program]
  rw [same] at entered
  have cleared : (m.modifyCurrent fun _ => {}).Ordered (· = {}) := h.dies rfl
  rcases Exec.enter_cases cleared.sane closure args 0 0 with
    ⟨-, failed⟩ | ⟨-, m'', done, alone, -, thread⟩
  · rw [entered] at failed
    cases failed
  · rw [entered] at done
    cases done
    rw [cleared.current] at thread
    refine cleared.alone alone ?_
    rw [thread]
    refine ⟨rfl, ?_, .idle _ _ _⟩
    simpa [Thread.entered] using
      Frame.Rests.enter (h.sane.closures closure (Array.mem_of_getElem? found)) 0 0

theorem Ordered.host (h : m.Ordered Thread.Active) {id : Nat} {args : List Value}
    (called : (∃ results, Exec.callHost id args m = .ok results m') ∨
      ∃ fault, Exec.callHost id args m = .error fault m') : m'.Ordered Thread.Active := by
  obtain ⟨m'', alone, same, which⟩ := Exec.callHost_cases h.sane id args
  have there : m' = m'' := by
    rcases called with ⟨vs, called⟩ | ⟨fault, called⟩ <;>
      rcases which with ⟨vs', done⟩ | ⟨fault', done⟩ <;> rw [called] at done <;> cases done <;> rfl
  rw [there]
  exact h.alone alone (same ▸ h.current)

/-- Every reachable machine is in order if the steps that slip are barred. -/
theorem Reachable.ordered {Barred : Machine → Prop}
    (slips : ∀ m : Machine, m.Ordered Thread.Active → m.Slips → Barred m)
    (h : m.Reachable Barred) : m.Ordered Thread.Active := by
  induction h with
  | start config => exact machine_ordered config
  | register h honest ih => exact ih.register honest
  | setGlobal h name v ih => exact ih.setGlobal name v
  | chunk h compiled ih =>
    refine ih.withStore fun c mem => ?_
    rcases Array.mem_push.1 mem with mem | rfl
    · exact Or.inl mem
    · exact Or.inr (Closure.IsChunk.fits ⟨rfl, _, _, compiled⟩)
  | takeOutput h ih => exact ih.withStore fun c mem => Or.inl mem
  | enter h idle dead found entered ih => exact ih.enter idle found entered
  | host h called ih => exact ih.host called
  | step h free step ih => exact step_ordered ih step
  | fault h free step ih =>
    exact unwind_ordered (error_ordered ih (fun slip => free (slips _ ih slip)) step) _

/-- In every run in which the protected call is never applied to itself, stack and closure list have at
every step the depths above the innermost frame's bases that the verifier records for its next
instruction. -/
theorem Reachable.depths_recorded (h : m.Reachable Doubles) {f : Frame} {rest : List Frame}
    (frames : m.current.frames = f :: rest) :
    ∃ record d, Verifier.depths f.closure.unit = .ok record ∧ record.at? f.ip = some d ∧
      (m.current.stack.size : Int) - f.base = d.depth ∧
      (m.current.captures.size : Int) - f.captureBase = f.closure.upvalues.size + d.closed := by
  have active := (h.ordered fun m ordered slips => slips.doubles ordered).current.2
  rw [frames] at active
  obtain ⟨record, captured, d, recorded, here, depth, closed⟩ := active.rests
  exact ⟨record, d, recorded.depths, here, by omega, by omega⟩

/-- A chunk that has made a table. -/
theorem Reachable.depths_recorded_newTable : ∃ (m : Machine) (f : Frame) (rest : List Frame),
    m.Reachable Doubles ∧ m.current.frames = f :: rest ∧ f.ip = 1 ∧
    ∃ record d, Verifier.depths f.closure.unit = .ok record ∧ record.at? f.ip = some d ∧
      (m.current.stack.size : Int) - f.base = d.depth ∧
      (m.current.captures.size : Int) - f.captureBase = f.closure.upvalues.size + d.closed := by
  obtain ⟨u, compiled, code⟩ : ∃ u, Compiler.compileSource "local t = {} return t" "test" = .ok u ∧
      u.code[0]? = some (Instruction.make .newTable 0 0) := Compiler.compileSource_of_any (by decide +kernel)
  have opcode : (Instruction.make .newTable 0 0).opcode? = some .newTable := Instruction.opcode?_make ..
  obtain ⟨m, reach, running, -, threads, -⟩ :=
    (Reachable.start {}).launch (Fresh.machine (by decide)) compiled []
  have inside : m.running < m.threads.size := by simp [running, threads]
  have frames : m.current.frames = [⟨⟨u, #[]⟩, 0, 0, 0, 0, 0, false⟩] := by
    simp [Machine.current, thread, threads, running, Thread.ofChunk]
  have silent : ¬m.Doubles := by
    rintro ⟨callee, args, want, rest, asked, -⟩
    simp [nextCall?, next?, frames, code, opcode, request?, Opcode.arithmetic?] at asked
  have stepped : Exec.step m = .ok none
      (({ m.modifyCurrent (·.modifyFrame ({ · with ip := 1 })) with
        store := m.store.newTable.2 } : Machine).push (.table m.store.newTable.1)) := by
    simp only [Exec.step, Exec.bind_apply, Exec.get_apply, frames, Exec.set_apply, code, opcode]
    rfl
  have current : ({ m.modifyCurrent (·.modifyFrame ({ · with ip := 1 })) with
      store := m.store.newTable.2 } : Machine).current =
        m.current.modifyFrame ({ · with ip := 1 }) := by
    rw [current_withStore, current_modifyCurrent inside]
  have after : (({ m.modifyCurrent (·.modifyFrame ({ · with ip := 1 })) with
      store := m.store.newTable.2 } : Machine).push (.table m.store.newTable.1)).current.frames =
        [⟨⟨u, #[]⟩, 1, 0, 0, 0, 0, false⟩] := by
    rw [push_eq_pushResults, current_pushResults (by simpa using inside), current]
    simp [Thread.withCells, Thread.modifyFrame, frames]
  have reach := reach.step silent stepped
  exact ⟨_, _, _, reach, after, rfl, reach.depths_recorded after⟩

end Machine

end ScriptEngine
