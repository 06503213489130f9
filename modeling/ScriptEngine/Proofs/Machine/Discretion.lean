import ScriptEngine.Proofs.Machine.Restoration
import ScriptEngine.Proofs.Machine.Seclusion

/-!
# Slots stay apart

Whatever happens to a machine next, a step or something that its host does, draws on nothing but the deeds of the
next instruction (`Happens.draws`). So the cells of all slots are apart in every state that a machine with a
discreet host comes to (`Reachable.separate`); the base library is discreet (`machine_discreet`).
-/

set_option linter.dupNamespace false

namespace ScriptEngine

/-! ## The base library is discreet -/

/-- The action leaves cells and closures as they are. -/
def HostAction.Spares {α : Type} (action : HostAction α) : Prop :=
  ∀ s, (action.run.run s).2.cells = s.cells ∧ (action.run.run s).2.closures = s.closures

namespace HostAction

variable {α β : Type}

theorem spares_pure (a : α) : Spares (pure a : HostAction α) := fun _ => ⟨rfl, rfl⟩

theorem spares_throw (fault : Fault) : Spares (throw fault : HostAction α) := fun _ => ⟨rfl, rfl⟩

theorem spares_get : Spares (get : HostAction Store) := fun _ => ⟨rfl, rfl⟩

theorem spares_modify {f : Store → Store} (h : ∀ s, (f s).cells = s.cells ∧ (f s).closures = s.closures) :
    Spares (modify f : HostAction PUnit) := h

theorem spares_ofExcept (e : Except Fault α) : Spares (MonadExcept.ofExcept e : HostAction α) := by
  cases e <;> exact fun _ => ⟨rfl, rfl⟩

theorem spares_bind {x : HostAction α} {f : α → HostAction β} (first : x.Spares)
    (second : ∀ a, (f a).Spares) : (x >>= f).Spares := by
  intro s
  obtain ⟨cells, closures⟩ := first s
  show (ExceptT.bindCont f (x.run.run s).1 (x.run.run s).2).2.cells = _ ∧
    (ExceptT.bindCont f (x.run.run s).1 (x.run.run s).2).2.closures = _
  generalize x.run.run s = r at cells closures ⊢
  rcases r with ⟨_ | a, s'⟩
  · exact ⟨cells, closures⟩
  · obtain ⟨cells', closures'⟩ := second a s'
    exact ⟨cells'.trans cells, closures'.trans closures⟩

theorem spares_write (id : Nat) (key value : Value) : (write id key value).Spares :=
  spares_bind (spares_ofExcept _) fun _ => spares_modify fun _ => ⟨rfl, rfl⟩

end HostAction

/-- A function that leaves cells and closures as they are is discreet. -/
theorem HostFunction.discreet_of_spares {f : HostFunction} (h : ∀ args, (f.run args).Spares) : f.Discreet :=
  fun args s => .of_same (h args s).1 (h args s).2

namespace Library

open HostAction

theorem spares_tableArgument (function : String) (args : List Value) (position : Nat) :
    (tableArgument function args position).Spares := by
  unfold tableArgument
  split
  · exact spares_pure _
  · exact spares_throw _

/-- The one function that makes closures makes them of compiled chunks. -/
theorem load_discreet : HostFunction.Discreet ⟨"load", load⟩ := by
  intro args s
  show s.Minds ((load args).run.run s).2
  unfold load
  split
  · rename_i text head
    split
    · rename_i unit compiled
      refine ⟨Nat.le_refl _, fun c mem => ?_, fun _ _ _ => rfl⟩
      rcases Array.mem_push.1 (show c ∈ s.closures.push ⟨unit, #[]⟩ from mem) with mem | rfl
      · exact Or.inl mem
      · exact Or.inr ⟨rfl, text, "load", compiled⟩
    · exact .refl s
  · exact .refl s

theorem plainFunctions_discreet (config : Config) : ∀ f ∈ plainFunctions config, f.Discreet := by
  intro f mem
  simp only [plainFunctions, List.mem_cons, List.not_mem_nil, or_false] at mem
  rcases mem with rfl | rfl | rfl | rfl | rfl | rfl | rfl | rfl | rfl | rfl | rfl | rfl | rfl | rfl | rfl
  case inr.inr.inr.inr.inr.inr.inr.inr.inr.inr.inr.inr.inr.inl => exact load_discreet
  all_goals
    refine HostFunction.discreet_of_spares fun args => ?_
    simp only [print, type, tostring, tonumber, assert, error, select, rawget, rawset, rawequal,
      setmetatable, getmetatable, next, unpack]
    with_reducible
      repeat' first
        | exact spares_pure _ | exact spares_throw _ | exact spares_get | exact spares_ofExcept _
        | exact spares_write _ _ _ | exact spares_tableArgument _ _ _ | exact spares_modify fun _ => ⟨rfl, rfl⟩
        | refine spares_bind ?_ fun _ => ?_ | split

theorem stringLength_discreet : HostFunction.Discreet ⟨"string.len", stringLength⟩ := by
  refine HostFunction.discreet_of_spares fun args => ?_
  simp only [stringLength]
  split
  · exact spares_pure _
  · exact spares_throw _

/-- All functions of the base library are discreet. -/
theorem machine_discreet (config : Config) : ∀ f ∈ (machine config).hosts, f.Discreet := by
  have iterator : HostFunction.Discreet ⟨"ipairs_iterator", ipairsIterator config.maxChainDepth⟩ :=
    HostFunction.discreet_of_spares fun _ => spares_bind (spares_tableArgument _ _ _) fun _ =>
      spares_bind spares_get fun _ => spares_bind (spares_ofExcept _) fun _ => spares_pure _
  have ipairs' (v : Value) : HostFunction.Discreet ⟨"ipairs", ipairs v⟩ :=
    HostFunction.discreet_of_spares fun _ => spares_bind (spares_tableArgument _ _ _) fun _ => spares_pure _
  have pairs' (v : Value) : HostFunction.Discreet ⟨"pairs", pairs v⟩ :=
    HostFunction.discreet_of_spares fun _ => spares_bind (spares_tableArgument _ _ _) fun _ => spares_pure _
  have plain : ∀ f ∈ ((plainFunctions config).foldl Machine.register { config }).hosts, f.Discreet := by
    have discreet := plainFunctions_discreet config
    generalize plainFunctions config = fs at discreet
    have start : ∀ f ∈ ({ config } : Machine).hosts, f.Discreet := by simp
    generalize ({ config } : Machine) = m at start
    induction fs generalizing m with
    | nil => exact start
    | cons g fs ih =>
      refine ih (fun f mem => discreet f (List.mem_cons_of_mem _ mem)) _ fun f mem => ?_
      rcases Array.mem_push.1 (show f ∈ m.hosts.push g from mem) with mem | rfl
      · exact start f mem
      · exact discreet f List.mem_cons_self
  intro f mem
  rcases Array.mem_push.1 mem with mem | rfl
  · rcases Array.mem_push.1 mem with mem | rfl
    · rcases Array.mem_push.1 mem with mem | rfl
      · rcases Array.mem_push.1 mem with mem | rfl
        · exact plain f mem
        · exact iterator
      · exact ipairs' _
    · exact pairs' _
  · exact stringLength_discreet

end Library

/-! ## Steps -/

namespace Machine

variable {m m' : Machine} {d : Deeds}

theorem Draws.mono {e : Deeds} (h : Draws d m m') (writes : ∀ x, d.writes x → e.writes x)
    (binds : ∀ x, d.binds x → e.binds x) (makes : ∀ c, d.makes c → e.makes c) : Draws e m m' where
  separate := h.separate
  cells := h.cells
  slots := h.slots
  shared x known := (h.shared x known).imp_right (binds x)
  closures c has := (h.closures c has).imp_right (Or.imp_right (makes c))
  values x old hidden free untouched :=
    h.values x old hidden (fun bound => free (binds x bound)) fun written => untouched (writes x written)

/-- A frame is left. -/
theorem Separate.leave (separate : m.Separate) {f : Frame} {rest : List Frame}
    (frames : m.current.frames = f :: rest) : Draws d m (m.modifyCurrent (f.leave rest)) := by
  refine separate.shorten _ (Array.shrink_eq_take ..) (fun x mem => ?_) fun g mem => ⟨g, ?_, rfl⟩
  · change x ∈ m.current.captures.shrink f.captureBase at mem
    rw [Array.shrink_eq_take] at mem
    exact Exec.mem_of_mem_extract mem
  · show g ∈ m.current.frames
    rw [frames]
    exact List.mem_cons_of_mem _ mem

theorem returnFrom_draws (separate : m.Separate) (results : List Value) :
    Draws d m (Exec.final (Exec.returnFrom results m)) := by
  cases frames : m.current.frames with
  | nil =>
    simp only [Exec.returnFrom, Exec.bind_apply, Exec.get_apply, frames]
    exact separate.refl d
  | cons f rest =>
    have left := separate.leave frames (d := d)
    rcases Exec.returnFrom_cases frames results with ⟨-, done⟩ | ⟨-, -, done⟩ | ⟨-, resumer, others, -, done⟩ <;> rw [done]
    · exact left.trans (left.separate.pushResultsOn _ _ _)
    · exact left
    · have given := left.separate.deliver resumer (.boolean true :: f.pays results) (d := d)
      exact (left.trans given).trans (given.separate.withControl resumer others)

/-- What the next instruction does itself. -/
def nextDeeds (m : Machine) : Deeds :=
  match m.next? with
  | some (op, a, _) => m.deeds op a
  | none => ⟨fun _ => False, fun _ => False, fun _ => False⟩

/-- The deeds of an instruction do not depend on the frame's address. -/
theorem deeds_advance {f : Frame} {rest : List Frame} (frames : m.current.frames = f :: rest) {op : Opcode}
    {a : Nat} (h : Draws (m.advance.deeds op a) m m') : Draws (m.deeds op a) m m' := by
  have current := current_advance (Exec.lt_of_frames frames) frames
  refine h.mono (fun x => ?_) (fun x => ?_) fun c => ?_
  · simp only [deeds, current]
    exact id
  · simp only [deeds, current]
    exact id
  · simp only [deeds, current]
    rintro ⟨rfl, g, rest', child, same, found, rfl⟩
    obtain ⟨rfl, rfl⟩ := List.cons.inj same
    exact ⟨rfl, f, rest, child, frames, found, rfl⟩

/-- A step draws on the deeds of its instruction. -/
theorem Poises.step_draws {f : Frame} {rest : List Frame} {op : Opcode} {a b : Nat} (separate : m.Separate)
    (poises : m.Poises f rest op a b) : Draws (m.deeds op a) m (Exec.final (Exec.step m)) := by
  refine deeds_advance poises.frames ?_
  have advanced : Draws (m.advance.deeds op a) m m.advance :=
    Exec.modifyFrame_draws separate _ fun _ => rfl
  refine advanced.trans ?_
  have separate := advanced.separate
  by_cases ret : op = .ret
  · rw [poises.returns ret]
    have dropped := separate.drop a (d := m.advance.deeds op a)
    simp only [Exec.bind_apply, Exec.popSpread_eq]
    exact dropped.trans (returnFrom_draws dropped.separate _)
  · rw [poises.performs ret]
    have done := Exec.perform_draws separate (congrArg Thread.frames poises.thread) op a b
    exact .bind done fun _ _ _ separate => separate.refl _

/-- A handler restores what it noted. -/
theorem Separate.restore (separate : m.Separate) (handler : Handler) (hs : List Handler) :
    Draws d m (m.modifyCurrent fun t => { t.restore handler with handlers := hs, awaitingProtections := 0 }) := by
  refine separate.shorten _ (Array.shrink_eq_take ..) (fun x mem => ?_) fun g mem => ⟨g, ?_, rfl⟩
  · change x ∈ m.current.captures.shrink handler.captures at mem
    rw [Array.shrink_eq_take] at mem
    exact Exec.mem_of_mem_extract mem
  · exact List.mem_of_mem_drop mem

theorem catchWith_draws (separate : m.Separate) (handler : Handler) (outer : List Handler) (fault : Fault) :
    Draws d m (m.catchWith handler outer fault) := by
  have restored := separate.restore handler (outer.drop handler.wraps) (d := d)
  exact restored.trans (restored.separate.pushResultsOn _ _ _)

theorem unwindFrom_draws (separate : m.Separate) (fault : Fault) (id : Nat) (waiting : List Nat) :
    Draws d m (m.unwindFrom fault id waiting).2 := by
  have dies (m : Machine) (separate : m.Separate) (id : Nat) : Draws d m (m.modifyThread id fun _ => {}) :=
    separate.modifyThread_same id (fun i x slot => by simp at slot) (by simp) (by simp)
  induction waiting generalizing m id with
  | nil =>
    unfold unwindFrom
    cases (m.thread id).handlers with
    | cons handler outer =>
      have moved := separate.withControl id [] (d := d)
      exact moved.trans (catchWith_draws moved.separate handler outer fault)
    | nil =>
      have dead := dies m separate id
      exact dead.trans (dead.separate.withControl id [])
  | cons resumer rest ih =>
    unfold unwindFrom
    cases (m.thread id).handlers with
    | cons handler outer =>
      have moved := separate.withControl id (resumer :: rest) (d := d)
      exact moved.trans (catchWith_draws moved.separate handler outer fault)
    | nil =>
      have dead := dies m separate id
      exact dead.trans (ih dead.separate resumer)

/-- A move draws on the deeds of the next instruction. -/
theorem Ordered.moves_draws (h : m.Ordered Thread.Active) (separate : m.Separate) (moves : m.Moves m') :
    Draws m.nextDeeds m m' := by
  have stepped : Draws m.nextDeeds m (Exec.final (Exec.step m)) := by
    cases frames : m.current.frames with
    | nil =>
      simp only [Exec.step, Exec.bind_apply, Exec.get_apply, frames, Exec.throw_apply]
      exact separate.refl _
    | cons f rest =>
      obtain ⟨op, a, b, poises⟩ := h.poises frames
      simp only [nextDeeds, poises.instruction]
      exact poises.step_draws separate
  cases moves with
  | step step =>
    rw [step] at stepped
    exact stepped
  | fault step =>
    rw [step] at stepped
    exact stepped.trans (unwindFrom_draws stepped.separate _ _ _)

/-! ## Hosts -/

theorem Outcome.hosts {want : Nat} {reply : Reply} {r : EStateM.Result Fault Machine Unit}
    (out : m.Outcome want reply r) : (Exec.final r).hosts = m.hosts := by
  cases out with
  | values alone same => exact (hosts_pushResultsOn ..).trans alone.hosts
  | entered entered => exact entered.alone.hosts
  | blocked switched => exact switched.hosts
  | raised raised => exact raised.alone.hosts

theorem hosts_judge (id n : Nat) (m : Machine) : (Exec.final (Exec.judge id n m)).hosts = m.hosts := by
  simp only [Exec.judge, Exec.bind_apply, Exec.get_apply]
  split
  · split
    · rfl
    · simp only [Exec.bind_apply, Exec.pop_apply, Exec.push_apply]
      rfl
  · rfl

theorem hosts_returnFrom (results : List Value) (m : Machine) :
    (Exec.final (Exec.returnFrom results m)).hosts = m.hosts := by
  cases frames : m.current.frames with
  | nil =>
    simp only [Exec.returnFrom, Exec.bind_apply, Exec.get_apply, frames]
    rfl
  | cons f rest =>
    rcases Exec.returnFrom_cases frames results with ⟨-, done⟩ | ⟨-, -, done⟩ | ⟨-, resumer, others, -, done⟩ <;>
      rw [done]
    · exact hosts_pushResultsOn ..
    · rfl
    · exact hosts_deliver ..

/-- A step leaves the functions of the host as they are. -/
theorem Poises.hosts_step {f : Frame} {rest : List Frame} {op : Opcode} {a b : Nat}
    (poises : m.Poises f rest op a b) : (Exec.final (Exec.step m)).hosts = m.hosts := by
  obtain ⟨captured, d, poised⟩ := poises.poised
  by_cases ret : op = .ret
  · subst ret
    rw [poises.returns rfl]
    simp only [Exec.bind_apply, Exec.popSpread_eq]
    exact hosts_returnFrom _ _
  · have result := performed poised ret
    rw [poises.performs ret, Exec.bind_apply]
    have kept : (Exec.final (Exec.perform f.closure op a b m.advance)).hosts = m.hosts := by
      generalize Exec.perform f.closure op a b m.advance = r at result
      cases result with
      | stays turns => exact turns.alone.hosts
      | raises _ _ turns => exact turns.alone.hosts
      | @calls m₁ callee args want r asked turns same size closed next called =>
        obtain ⟨reply, out, -⟩ := Exec.call_outcome (poised.sane.alone turns.alone) callee args want
        have hosts := out.hosts.trans turns.alone.hosts
        rcases called with rfl | ⟨-, rfl⟩
        · exact hosts
        · rw [Exec.bind_apply]
          cases made : Exec.call callee args want m₁ with
          | error fault m₂ =>
            rw [made] at hosts
            exact hosts
          | ok u m₂ =>
            rw [made] at hosts
            exact (hosts_judge _ _ m₂).trans hosts
    cases done : Exec.perform f.closure op a b m.advance <;> rw [done] at kept <;> exact kept

theorem hosts_unwindFrom (fault : Fault) (id : Nat) (waiting : List Nat) (m : Machine) :
    (m.unwindFrom fault id waiting).2.hosts = m.hosts := by
  have caught (m : Machine) (handler : Handler) (outer : List Handler) :
      (m.catchWith handler outer fault).hosts = m.hosts := hosts_pushResultsOn ..
  induction waiting generalizing m id with
  | nil =>
    unfold unwindFrom
    cases (m.thread id).handlers with
    | cons handler outer => exact caught ..
    | nil => rfl
  | cons resumer rest ih =>
    unfold unwindFrom
    cases (m.thread id).handlers with
    | cons handler outer => exact caught ..
    | nil => exact ih resumer _

theorem Ordered.hosts_moves (h : m.Ordered Thread.Active) (moves : m.Moves m') : m'.hosts = m.hosts := by
  have stepped : (Exec.final (Exec.step m)).hosts = m.hosts := by
    cases frames : m.current.frames with
    | nil =>
      simp only [Exec.step, Exec.bind_apply, Exec.get_apply, frames, Exec.throw_apply]
      rfl
    | cons f rest =>
      obtain ⟨op, a, b, poises⟩ := h.poises frames
      exact poises.hosts_step
  cases moves with
  | step step =>
    rw [step] at stepped
    exact stepped
  | fault step =>
    rw [step] at stepped
    exact (hosts_unwindFrom ..).trans stepped

theorem hosts_callHost {id : Nat} {args : List Value}
    (called : (∃ results, Exec.callHost id args m = .ok results m') ∨
      ∃ fault, Exec.callHost id args m = .error fault m') : m'.hosts = m.hosts := by
  simp only [Exec.callHost, Exec.bind_apply, Exec.get_apply] at called
  cases found : m.hosts[id]? with
  | none =>
    simp only [found] at called
    rcases called with ⟨vs, done⟩ | ⟨fault, done⟩ <;> cases done
    rfl
  | some f =>
    simp only [found, Exec.onStore_apply] at called
    cases ran : (f.run args).run.run m.store with
    | mk result store =>
      simp only [ran] at called
      cases result <;> rcases called with ⟨vs, done⟩ | ⟨fault, done⟩ <;> cases done <;> rfl

/-- Functions of the host stay. -/
theorem Happens.hosts {Barred : Machine → Prop} (h : m.Ordered Thread.Active) (next : m.Happens Barred m') :
    ∀ f ∈ m.hosts, f ∈ m'.hosts := by
  intro f mem
  cases next with
  | register honest => exact Array.mem_push_of_mem _ mem
  | setGlobal | chunk | takeOutput => exact mem
  | enter idle dead found entered =>
    rw [Exec.enter_apply] at entered
    split at entered
    · cases entered
    · cases entered
      exact mem
  | host called => rwa [hosts_callHost called]
  | move free moves => rwa [h.hosts_moves moves]

/-! ## Everything that happens -/

/-- Unless the machine moves, the host has done something, which draws on no deeds. -/
theorem Happens.moves_or_draws {Barred : Machine → Prop} (separate : m.Separate)
    (discreet : ∀ f ∈ m'.hosts, f.Discreet) (next : m.Happens Barred m') :
    (¬Barred m ∧ m.Moves m') ∨ ∀ d, Draws d m m' := by
  cases next with
  | register honest =>
    exact Or.inr fun d => ⟨⟨discreet, separate.slots, separate.single, separate.shared⟩, Nat.le_refl _,
      fun _ _ _ slot => Or.inl slot, fun _ known => Or.inl known, fun _ has => Or.inl has, fun _ _ _ _ _ => rfl⟩
  | setGlobal name v => exact Or.inr fun d => separate.withGlobals name v
  | chunk compiled =>
    refine Or.inr fun d => separate.withStore (Nat.le_refl _) (fun c mem => ?_) fun _ _ _ => rfl
    rcases Array.mem_push.1 mem with mem | rfl
    · exact Or.inl (Or.inl mem)
    · exact Or.inr (Or.inl ⟨rfl, _, _, compiled⟩)
  | takeOutput => exact Or.inr fun d => separate.minds (.of_same rfl rfl)
  | @enter _ id closure args idle dead known entered =>
    refine Or.inr fun d => ?_
    have cleared : Draws d m (m.modifyThread 0 fun _ => {}) :=
      separate.modifyThread_same 0 (fun i x slot => by simp at slot) (by simp) (by simp)
    refine cleared.trans ?_
    have ran := Exec.enter_known cleared.separate (d := d) known args 0 0
    rwa [entered] at ran
  | @host _ id args called =>
    refine Or.inr fun d => ?_
    have ran := Exec.callHost_draws separate (d := d) id args
    rcases called with ⟨results, done⟩ | ⟨fault, done⟩ <;> rwa [done] at ran
  | move free moves => exact Or.inl ⟨free, moves⟩

/-- Whatever happens next draws on the deeds of the next instruction. -/
theorem Happens.draws {Barred : Machine → Prop} (h : m.Ordered Thread.Active) (separate : m.Separate)
    (discreet : ∀ f ∈ m'.hosts, f.Discreet) (next : m.Happens Barred m') : Draws m.nextDeeds m m' :=
  (next.moves_or_draws separate discreet).elim (fun moves => h.moves_draws separate moves.2) fun draws => draws _

/-- The machine has neither cells nor closures. -/
structure Blank (m : Machine) : Prop where
  threads : m.threads = #[{}]
  closures : m.store.closures = #[]

namespace Blank

theorem setGlobal (h : m.Blank) (name : String) (v : Value) : (m.setGlobal name v).Blank :=
  ⟨h.threads, h.closures⟩

theorem addHost (h : m.Blank) (f : HostFunction) : (m.addHost f).2.Blank := ⟨h.threads, h.closures⟩

theorem register (h : m.Blank) (f : HostFunction) : (m.register f).Blank := (h.addHost f).setGlobal _ _

theorem addLibrary (h : m.Blank) (name : String) (fields : List (String × Value)) :
    (Library.addLibrary m name fields).Blank := ⟨h.threads, h.closures⟩

theorem machine (config : Config) : (Library.machine config).Blank := by
  have plain : ((Library.plainFunctions config).foldl Machine.register { config }).Blank := by
    have start : ({ config } : Machine).Blank := ⟨rfl, rfl⟩
    generalize Library.plainFunctions config = fs
    generalize ({ config } : Machine) = m at start
    induction fs generalizing m with
    | nil => exact start
    | cons f fs ih => exact ih _ (start.register f)
  exact .addLibrary (.addHost (.addLibrary (.setGlobal (.setGlobal (.register (.register
    (.addHost plain _) _) _) _ _) _ _) _ _) _) _ _

theorem separate (h : m.Blank) (discreet : ∀ f ∈ m.hosts, f.Discreet) : m.Separate := by
  have blank (id : Nat) : m.thread id = {} := by
    rw [thread, h.threads]
    cases id <;> rfl
  refine ⟨discreet, fun id i x slot => ?_, fun id i id' i' x slot => ?_, fun x known => ?_⟩
  · simp [Slot, blank] at slot
  · simp [Slot, blank] at slot
  · rcases known with ⟨id, mem⟩ | ⟨c, mem | ⟨id, f, mem, -⟩, -⟩
    · simp [blank] at mem
    · simp [h.closures] at mem
    · simp [blank] at mem

end Blank

/-- What holds of new machines, and stays whatever happens, holds of all reachable machines. -/
theorem Reachable.of_happens {Barred P : Machine → Prop} (start : ∀ config, P (Library.machine config))
    (next : ∀ m m', m.Reachable Barred → P m → m.Happens Barred m' → P m') (h : m.Reachable Barred) : P m := by
  induction h with
  | start config => exact start config
  | register h honest ih => exact next _ _ h ih (.register honest)
  | setGlobal h name v ih => exact next _ _ h ih (.setGlobal name v)
  | chunk h compiled ih => exact next _ _ h ih (.chunk compiled)
  | takeOutput h ih => exact next _ _ h ih .takeOutput
  | enter h idle dead found entered ih => exact next _ _ h ih (.enter idle dead found entered)
  | host h called ih => exact next _ _ h ih (.host called)
  | step h free step ih => exact next _ _ h ih (.move free (.step step))
  | fault h free step ih => exact next _ _ h ih (.move free (.fault step))

/-- The cells of all slots are apart in every state of a machine with a discreet host. -/
theorem Reachable.separate {Barred : Machine → Prop}
    (slips : ∀ m : Machine, m.Ordered Thread.Active → m.Slips → Barred m) (h : m.Reachable Barred)
    (discreet : ∀ f ∈ m.hosts, f.Discreet) : m.Separate := by
  revert discreet
  refine Reachable.of_happens (P := fun m => (∀ f ∈ m.hosts, f.Discreet) → m.Separate)
    (fun config => (Blank.machine config).separate) (fun m m' reach ih next discreet => ?_) h
  have ordered := reach.ordered slips
  exact (next.draws ordered (ih fun f mem => discreet f (next.hosts ordered f mem)) discreet).separate

/-- A chunk is called on a machine with a discreet host on which nothing has run yet. -/
theorem Reachable.launch_discreet {Barred : Machine → Prop} (h : m.Reachable Barred) (fresh : m.Fresh)
    (discreet : ∀ f ∈ m.hosts, f.Discreet) {text label : String} {u : CodeUnit}
    (compiled : Compiler.compileSource text label = .ok u) (args : List Value) :
    ∃ m' : Machine, m'.Reachable Barred ∧ (∀ f ∈ m'.hosts, f.Discreet) ∧ m'.running = 0 ∧
      m'.threads = #[.ofChunk u] := by
  obtain ⟨m', entered, running, -, threads, -⟩ := fresh.enters u args
  have found : (m.store.closures.push ⟨u, #[]⟩)[m.store.closures.size]? = some ⟨u, #[]⟩ := by simp
  have hosts : m'.hosts = m.hosts := by
    have entered := entered
    rw [Exec.enter_apply] at entered
    split at entered
    · cases entered
    · cases entered
      rfl
  exact ⟨m', (h.chunk compiled).enter fresh.waiting (by simp [thread, fresh.threads]) found entered,
    hosts ▸ discreet, running, threads⟩

end Machine

end ScriptEngine
