import ScriptEngine.Proofs.Machine.Plain

/-!
# Calls add no multi-values

A machine is `Plain` if its store and its globals are, if its host adds no multi-values, and if no cell that
a frame has closed over holds one. `Comes` says of an action that it leaves such a machine plain, keeps the
plain cells, and comes to a result as stated or to a plain fault. Every call of a plain value with plain
arguments does (`call_comes`): a multi-value goes no further than to the slot where it is pushed.
-/

set_option linter.dupNamespace false

namespace ScriptEngine

/-- No cell that the thread's frames have closed over or have for an upvalue holds a multi-value. -/
structure Thread.Captured (s : Store) (t : Thread) : Prop where
  captures : ∀ cell ∈ t.captures, s.HasPlain cell
  upvalues : ∀ f ∈ t.frames, ∀ cell ∈ f.closure.upvalues, s.HasPlain cell

namespace Thread.Captured

variable {s s' : Store} {t : Thread}

theorem mono (h : t.Captured s) (keeps : s.Keeps s') : t.Captured s' :=
  ⟨fun cell mem => keeps cell (h.captures cell mem), fun f mem cell mem' => keeps cell (h.upvalues f mem cell mem')⟩

theorem empty : Captured s {} := ⟨by simp, by simp⟩

theorem ofClosure {c : Closure} (h : ∀ cell ∈ c.upvalues, s.HasPlain cell) : (Thread.ofClosure c).Captured s :=
  ⟨h, fun f mem => by rw [List.mem_singleton.1 mem]; exact h⟩

/-- The closure of the innermost frame stays. -/
theorem modifyFrame (h : t.Captured s) {f : Frame → Frame} (same : ∀ g, (f g).closure = g.closure) :
    (t.modifyFrame f).Captured s := by
  unfold Thread.modifyFrame
  cases frames : t.frames with
  | nil => exact h
  | cons g rest =>
    refine ⟨h.captures, fun g' mem => ?_⟩
    have old := h.upvalues
    rw [frames] at old
    rcases List.mem_cons.1 mem with rfl | mem
    · rw [same]
      exact old g List.mem_cons_self
    · exact old g' (List.mem_cons_of_mem _ mem)

theorem modifyHandler (h : t.Captured s) (f : Handler → Handler) : (t.modifyHandler f).Captured s := by
  unfold Thread.modifyHandler
  split
  · exact h
  · exact ⟨h.captures, h.upvalues⟩

/-- Frames and closed variables may go. -/
theorem less (h : t.Captured s) {t' : Thread} (captures : ∀ cell ∈ t'.captures, cell ∈ t.captures)
    (frames : ∀ f ∈ t'.frames, f ∈ t.frames) : t'.Captured s :=
  ⟨fun cell mem => h.captures cell (captures cell mem), fun f mem => h.upvalues f (frames f mem)⟩

end Thread.Captured

namespace Machine

structure Plain (m : Machine) : Prop where
  store : m.store.Plain
  globals : ∀ name, (m.global name).isPlain = true
  hosts : ∀ f ∈ m.hosts, f.Plain
  threads : ∀ id, (m.thread id).Captured m.store

/-- From `m` a plain machine has come about, and the plain cells have stayed plain. -/
structure Flows (m m' : Machine) : Prop where
  plain : m'.Plain
  keeps : m.store.Keeps m'.store

theorem Flows.trans {m m' m'' : Machine} (first : m.Flows m') (second : m'.Flows m'') : m.Flows m'' :=
  ⟨second.plain, first.keeps.trans second.keeps⟩

/-- A result as `P` says or a plain fault, on a machine that `m` flows to. -/
def Comes {α : Type} (m : Machine) (P : α → Prop) : EStateM.Result Fault Machine α → Prop
  | .ok a m' => P a ∧ m.Flows m'
  | .error fault m' => fault.IsPlain ∧ m.Flows m'

namespace Plain

variable {m : Machine} (plain : m.Plain)
include plain

theorem refl : m.Flows m := ⟨plain, .refl _⟩

theorem modifyThread (id : Nat) {f : Thread → Thread}
    (kept : ∀ t : Thread, t.Captured m.store → (f t).Captured m.store) : m.Flows (m.modifyThread id f) := by
  refine ⟨⟨plain.store, plain.globals, plain.hosts, fun k => ?_⟩, .refl _⟩
  show ((m.modifyThread id f).thread k).Captured m.store
  by_cases same : k = id
  · subst same
    by_cases inside : k < m.threads.size
    · rw [thread_modifyThread_self inside]
      exact kept _ (plain.threads k)
    · have outside : (m.modifyThread k f).thread k = {} := by
        simp [thread, Nat.le_of_not_lt inside]
      rw [outside]
      exact .empty
  · rw [thread_modifyThread_ne same]
    exact plain.threads k

theorem withStore {s : Store} (hs : s.Plain ∧ m.store.Keeps s) : m.Flows { m with store := s } :=
  ⟨⟨hs.1, plain.globals, plain.hosts, fun id => (plain.threads id).mono hs.2⟩, hs.2⟩

theorem withControl (running : Nat) (waiting : List Nat) : m.Flows { m with running, waiting } :=
  ⟨⟨plain.store, plain.globals, plain.hosts, plain.threads⟩, .refl _⟩

theorem setGlobal (name : String) {v : Value} (h : v.isPlain = true) : m.Flows (m.setGlobal name v) := by
  refine ⟨⟨plain.store, fun other => ?_, plain.hosts, plain.threads⟩, .refl _⟩
  have old := plain.globals other
  by_cases same : other = name
  · subst same
    cases none' : v.isNil with
    | true => simp [Machine.setGlobal, global, none', Value.isPlain]
    | false => rw [global_setGlobal_self m other none', h]
  · rw [global_setGlobal_ne m same, old]

theorem pushResultsOn (id want : Nat) {vs : List Value} (h : Value.AllPlain vs) :
    m.Flows (m.pushResultsOn id want vs) := by
  rw [pushResultsOn_eq]
  have moved := plain.modifyThread id (f := (·.withCells m.store.cells.size (slots want)))
    fun t ht => ⟨ht.captures, ht.upvalues⟩
  exact moved.trans (moved.plain.withStore (plain.store.withCells (h.delivered_flat want)))

theorem push {v : Value} (h : v.IsFlat) : m.Flows (m.push v) := by
  rw [push_eq_pushResults, Machine.pushResults, pushResultsOn_eq]
  have moved := plain.modifyThread m.running (f := (·.withCells m.store.cells.size (slots 1)))
    fun t ht => ⟨ht.captures, ht.upvalues⟩
  refine moved.trans (moved.plain.withStore (plain.store.withCells fun w mem => ?_))
  rw [show w = v by simpa [delivered, Value.adjust] using mem]
  exact h

theorem deliver (id : Nat) {vs : List Value} (h : Value.AllPlain vs) : m.Flows (m.deliver id vs) := by
  have freed := plain.modifyThread id (f := fun t =>
    { t with handlers := t.handlers.drop t.awaitingProtections, awaitingProtections := 0 })
    fun t ht => ⟨ht.captures, ht.upvalues⟩
  exact freed.trans (freed.plain.pushResultsOn id _ (h.trues _))

theorem drop (n : Nat) : m.Flows (m.drop n) := plain.modifyThread _ fun _ ht => ⟨ht.captures, ht.upvalues⟩

theorem top (i : Nat) : (m.top i).IsFlat := by
  unfold Machine.top
  cases m.current.cell? i with
  | none => trivial
  | some cell => exact plain.store.cell cell

theorem spread (n : Nat) : Value.AllPlain (m.spread n) := by
  intro v mem
  obtain ⟨cell, -, mem⟩ := List.mem_flatMap.1 mem
  exact (plain.store.cell cell).spread v mem

theorem metamethod (v : Value) (event : String) : PlainOr (·.isPlain = true) (m.metamethod v event) := by
  unfold Machine.metamethod
  split
  · exact plain.store.lookup _ _ _
  · rfl

theorem callTarget {callee : Value} {args : List Value} (hc : callee.isPlain = true) (hargs : Value.AllPlain args) :
    PlainOr (fun r => r.1.isPlain = true ∧ Value.AllPlain r.2) (m.callTarget callee args) := by
  cases callee with
  | table id =>
    refine .bind (plain.metamethod (.table id) "__call") fun handler hh => ?_
    cases handler with
    | nil | table => trivial
    | _ => exact ⟨hh, .cons hc hargs⟩
  | _ => exact ⟨hc, hargs⟩

end Plain

namespace Comes

variable {α β : Type} {m m' : Machine} {P : α → Prop} {Q : β → Prop}

theorem mono {P' : α → Prop} {r : EStateM.Result Fault Machine α} (h : m.Comes P r) (less : ∀ a, P a → P' a) :
    m.Comes P' r := by
  cases r with
  | ok a m' => exact ⟨less a h.1, h.2⟩
  | error fault m' => exact h

theorem after {r : EStateM.Result Fault Machine α} (first : m.Flows m') (h : m'.Comes P r) : m.Comes P r := by
  cases r with
  | ok a m'' => exact ⟨h.1, first.trans h.2⟩
  | error fault m'' => exact ⟨h.1, first.trans h.2⟩

theorem bind {x : Exec α} {f : α → Exec β} (first : m.Comes P (x m))
    (second : ∀ a m', x m = .ok a m' → P a → m'.Plain → m'.Comes Q (f a m')) : m.Comes Q ((x >>= f) m) := by
  rw [Exec.bind_apply]
  cases done : x m with
  | ok a m' =>
    rw [done] at first
    exact .after first.2 (second a m' done first.1 first.2.plain)
  | error fault m' =>
    rw [done] at first
    exact first

theorem ofExcept (plain : m.Plain) {e : Except Fault α} (h : PlainOr P e) : m.Comes P (Exec.ofExcept e m) := by
  cases e with
  | ok a => exact ⟨h, plain.refl⟩
  | error fault => exact ⟨h, plain.refl⟩

theorem throw (plain : m.Plain) {fault : Fault} (h : fault.IsPlain) :
    m.Comes P ((MonadExcept.throw fault : Exec α) m) := ⟨h, plain.refl⟩

theorem onStore (plain : m.Plain) {action : HostAction α} (h : action.Plain P) :
    m.Comes P (Exec.onStore action m) := by
  have done := h m.store plain.store
  rw [Exec.onStore_apply]
  generalize action.run.run m.store = r at done ⊢
  obtain ⟨_ | a, s⟩ := r
  · exact ⟨done.1, plain.withStore done.2⟩
  · exact ⟨done.1, plain.withStore done.2⟩

end Comes

end Machine

/-! ## Calls -/

namespace Exec

open Machine

variable {m : Machine} (plain : m.Plain)
include plain

theorem pushResults_comes (want : Nat) {vs : List Value} (h : Value.AllPlain vs) :
    m.Comes (fun _ => True) (pushResults want vs m) :=
  ⟨trivial, plain.pushResultsOn _ want h⟩

theorem single_comes (want : Nat) {v : Value} (h : v.isPlain = true) :
    m.Comes (fun _ => True) (pushResults want [v] m) :=
  pushResults_comes plain want (.cons h fun _ mem => absurd mem List.not_mem_nil)

theorem enter_comes {c : Closure} (captured : ∀ cell ∈ c.upvalues, m.store.HasPlain cell) {args : List Value}
    (h : Value.AllPlain args) (want n : Nat) : m.Comes (fun _ => True) (enter c args want n m) := by
  unfold enter
  simp only [bind_apply, get_apply]
  split
  · exact ⟨trivial, plain.refl⟩
  · have framed := plain.modifyThread m.running (f := fun t =>
      { t with captures := t.captures ++ c.upvalues
               frames := { closure := c, ip := 0, base := m.current.stack.size, captureBase := m.current.captures.size,
                           want, protections := n } :: t.frames }) fun t ht => by
        refine ⟨fun cell mem => ?_, fun f mem => ?_⟩
        · rcases Array.mem_append.1 mem with mem | mem
          · exact ht.captures cell mem
          · exact captured cell mem
        · rcases List.mem_cons.1 mem with rfl | mem
          · exact captured
          · exact ht.upvalues f mem
    exact ⟨trivial, framed.trans (framed.plain.push (v := .multi args) h)⟩

theorem callHost_comes (id : Nat) {args : List Value} (h : Value.AllPlain args) :
    m.Comes Value.AllPlain (callHost id args m) := by
  simp only [callHost, bind_apply, get_apply]
  cases found : m.hosts[id]? with
  | none => exact ⟨fun _ mem => absurd mem List.not_mem_nil, plain.refl⟩
  | some f => exact .onStore plain (plain.hosts f (Array.mem_of_getElem? found) args h)

theorem threadArgument_comes (function : String) (args : List Value) :
    m.Comes (fun _ => True) (threadArgument function args m) := by
  unfold threadArgument
  cases args.head? with
  | none => exact ⟨trivial, plain.refl⟩
  | some v => cases v <;> exact ⟨trivial, plain.refl⟩

theorem create_comes (args : List Value) (want : Nat) : m.Comes (fun _ => True) (create args want m) := by
  simp only [create, bind_apply, get_apply]
  split
  · rename_i id _
    cases found : m.store.closures[id]? with
    | none => exact ⟨trivial, plain.refl⟩
    | some c =>
      have captured := plain.store.closures c (Array.mem_of_getElem? found)
      have made : m.Flows { m with threads := m.threads.push (.ofClosure c) } := by
        refine ⟨⟨plain.store, plain.globals, plain.hosts, fun id => ?_⟩, .refl _⟩
        show Thread.Captured m.store (((m.threads.push (.ofClosure c))[id]?).getD {})
        rw [Array.getElem?_push]
        split
        · exact .ofClosure captured
        · exact plain.threads id
      exact .after made (single_comes made.plain want rfl)
  · exact ⟨trivial, plain.refl⟩

/-- Another thread gets plain values and runs. -/
theorem switch_comes (id want : Nat) {vs : List Value} (h : Value.AllPlain vs) (waiting : List Nat) :
    m.Flows { (m.modifyCurrent fun t => { t with awaiting := want }).deliver id vs with running := id, waiting } := by
  have waits : m.Flows (m.modifyCurrent fun t => { t with awaiting := want }) :=
    plain.modifyThread _ fun t ht => ⟨ht.captures, ht.upvalues⟩
  have given := waits.plain.deliver id h
  exact (waits.trans given).trans (given.plain.withControl _ _)

theorem resume_comes {args : List Value} (h : Value.AllPlain args) (want : Nat) :
    m.Comes (fun _ => True) (resume args want m) := by
  unfold resume
  refine .bind (threadArgument_comes plain _ _) fun id m' done _ plain => ?_
  simp only [bind_apply, get_apply]
  split
  · exact ⟨trivial, plain.refl⟩
  · split
    · exact ⟨trivial, plain.refl⟩
    · split
      · exact single_comes plain want rfl
      · simp only [set_apply, running_deliver, waiting_deliver, running_modifyCurrent, waiting_modifyCurrent]
        exact ⟨trivial, switch_comes plain id want (h.drop 1) _⟩

theorem yield_comes {args : List Value} (h : Value.AllPlain args) (want : Nat) :
    m.Comes (fun _ => True) (yield args want m) := by
  simp only [yield, bind_apply, get_apply]
  cases m.waiting with
  | nil => exact ⟨trivial, plain.refl⟩
  | cons resumer rest =>
    simp only [set_apply, Machine.deliver_control]
    exact ⟨trivial, switch_comes plain resumer want (.cons rfl h) rest⟩

theorem dostring_comes (args : List Value) (want : Nat) : m.Comes (fun _ => True) (dostring args want m) := by
  unfold dostring
  cases args.head? with
  | none => exact ⟨trivial, plain.refl⟩
  | some v =>
    cases v with
    | string text =>
      exact .bind (.ofExcept plain (Compiler.compileSource_plain _ _)) fun unit m' _ _ plain =>
        enter_comes plain (by simp) (fun _ mem => absurd mem List.not_mem_nil) want 0
    | _ => exact ⟨trivial, plain.refl⟩

omit plain in
/-- Core functions other than the protected call, or the protected call if it is plain. -/
theorem callCoreWith_comes (plain : m.Plain) {protectedCall : Exec Unit} {f : CoreFunction}
    (protects : f = .pcall → m.Comes (fun _ => True) (protectedCall m)) {args : List Value}
    (h : Value.AllPlain args) (want : Nat) : m.Comes (fun _ => True) (callCoreWith protectedCall f args want m) := by
  cases f with
  | pcall => exact protects rfl
  | create => exact create_comes plain args want
  | resume => exact resume_comes plain h want
  | yield => exact yield_comes plain h want
  | status =>
    refine .bind (threadArgument_comes plain _ _) fun id m' _ _ plain => ?_
    simp only [bind_apply, get_apply]
    exact single_comes plain want rfl
  | dostring => exact dostring_comes plain args want

/-- Results that a protected call has got are handed on. -/
theorem settle_comes (caller frames handlers want : Nat) :
    m.Comes (fun _ => True) (m.settle caller frames handlers want m) := by
  unfold Machine.settle
  have wrapped : m.Flows (if handlers < (m.thread caller).handlers.length then
      m.modifyThread caller (·.modifyHandler fun h => { h with wraps := h.wraps + 1 }) else m) := by
    split
    · exact plain.modifyThread _ fun t ht => ht.modifyHandler _
    · exact plain.refl
  generalize (if handlers < (m.thread caller).handlers.length then
    m.modifyThread caller (·.modifyHandler fun h => { h with wraps := h.wraps + 1 }) else m) = k at wrapped ⊢
  refine .after wrapped ?_
  split
  · exact ⟨trivial, wrapped.plain.modifyThread _ fun t ht => ⟨ht.captures, ht.upvalues⟩⟩
  · split
    · exact ⟨trivial, wrapped.plain.modifyThread _ fun t ht => ht.modifyFrame fun _ => rfl⟩
    · have dropped := wrapped.plain.drop 1
      have freed := dropped.plain.modifyThread k.running (f := fun t => { t with handlers := t.handlers.drop 1 })
        fun t ht => ⟨ht.captures, ht.upvalues⟩
      simp only [bind_apply, set_apply, popSpread_eq, modify_apply]
      exact .after (dropped.trans freed)
        (pushResults_comes freed.plain want (.cons rfl (wrapped.plain.spread 1)))

theorem guarded_comes (want : Nat) {action : Exec Unit}
    (h : ∀ m', m.Flows m' → m'.Comes (fun _ => True) (action m')) : m.Comes (fun _ => True) (guarded want action m) := by
  have noted : m.Flows (m.modifyCurrent (·.pushHandler want)) :=
    plain.modifyThread _ fun t ht => ⟨ht.captures, ht.upvalues⟩
  simp only [guarded, bind_apply, modify_apply, get_apply]
  refine .after noted ?_
  have done := h _ noted
  generalize action (m.modifyCurrent (·.pushHandler want)) = r at done
  cases r with
  | ok u m' => exact .after done.2 (settle_comes done.2.plain _ _ _ want)
  | error fault m' => exact done

theorem pushFailure_comes (want : Nat) {fault : Fault} (h : fault.IsPlain) :
    m.Comes (fun _ => True) (pushFailure want fault m) :=
  pushResults_comes plain want (.cons rfl (.cons h.toValue fun _ mem => absurd mem List.not_mem_nil))

omit plain in
theorem pcall_comes (plain : m.Plain) {args : List Value} (h : Value.AllPlain args) (want : Nat) :
    m.Comes (fun _ => True) (pcall args want m) := by
  induction args generalizing m want with
  | nil => exact pushFailure_comes plain want trivial
  | cons callee rest ih =>
    obtain ⟨hc, hrest⟩ := List.forall_mem_cons.1 h
    by_cases nested : callee = .core .pcall
    · subst nested
      rw [pcall]
      exact guarded_comes plain want fun m' flows => ih flows.plain hrest 0
    · rw [pcall]
      case x_2 => exact nested
      have target := plain.callTarget hc hrest
      simp only [bind_apply, get_apply]
      cases found : m.callTarget callee rest with
      | error fault =>
        rw [found] at target
        exact pushFailure_comes plain want target
      | ok r =>
        obtain ⟨v, given⟩ := r
        rw [found] at target
        obtain ⟨-, hgiven⟩ := target
        cases v with
        | closure id =>
          simp only [bind_apply, get_apply]
          cases known : m.store.closures[id]? with
          | none => exact pushFailure_comes plain want trivial
          | some c =>
            have noted : m.Flows (m.modifyCurrent (·.pushHandler want)) :=
              plain.modifyThread _ fun t ht => ⟨ht.captures, ht.upvalues⟩
            simp only [bind_apply, modify_apply]
            exact .after noted (enter_comes noted.plain
              (plain.store.closures c (Array.mem_of_getElem? known)) hgiven want 1)
        | host id name =>
          have done := callHost_comes plain id hgiven
          simp only [bind_apply, get_apply]
          cases called : callHost id given m with
          | ok results m' =>
            rw [called] at done
            exact .after done.2 (pushResults_comes done.2.plain want (.cons rfl done.1))
          | error fault m' =>
            rw [called] at done
            exact .after done.2 (pushFailure_comes done.2.plain want done.1)
        | core f =>
          exact guarded_comes plain want fun m' flows =>
            callCoreWith_comes flows.plain
              (fun _ => .throw flows.plain (show Fault.IsPlain .stackOverflow from trivial)) hgiven 0
        | _ => exact pushFailure_comes plain want trivial

/-- Every call of a plain value with plain arguments. -/
theorem call_comes {callee : Value} {args : List Value} (hc : callee.isPlain = true) (h : Value.AllPlain args)
    (want : Nat) : m.Comes (fun _ => True) (call callee args want m) := by
  have target := plain.callTarget hc h
  simp only [call, bind_apply, get_apply]
  cases found : m.callTarget callee args with
  | error fault =>
    rw [found] at target
    exact ⟨target, plain.refl⟩
  | ok r =>
    obtain ⟨v, given⟩ := r
    rw [found] at target
    obtain ⟨-, hgiven⟩ := target
    simp only [ofExcept_ok]
    cases v with
    | closure id =>
      simp only [bind_apply, get_apply]
      cases known : m.store.closures[id]? with
      | none => exact ⟨trivial, plain.refl⟩
      | some c => exact enter_comes plain (plain.store.closures c (Array.mem_of_getElem? known)) hgiven want 0
    | host id name =>
      exact .bind (callHost_comes plain id hgiven) fun results m'' _ hresults plain =>
        pushResults_comes plain want hresults
    | core f => exact callCoreWith_comes plain (fun _ => pcall_comes plain hgiven want) hgiven want
    | _ => exact ⟨trivial, plain.refl⟩

theorem callMetamethod_comes (event : String) {lhs rhs : Value} (hl : lhs.isPlain = true) (hr : rhs.isPlain = true)
    {fault : Fault} (hf : fault.IsPlain) : m.Comes (fun _ => True) (callMetamethod event lhs rhs fault m) := by
  have operands : Value.AllPlain [lhs, rhs] := .cons hl (.cons hr fun _ mem => absurd mem List.not_mem_nil)
  have first := plain.metamethod lhs event
  have second := plain.metamethod rhs event
  simp only [callMetamethod, bind_apply, get_apply]
  cases left : m.metamethod lhs event with
  | error fault' =>
    rw [left] at first
    exact ⟨first, plain.refl⟩
  | ok handler =>
    rw [left] at first
    simp only [ofExcept_ok]
    by_cases missing : handler.isNil = true
    · simp only [if_pos missing, bind_apply]
      cases right : m.metamethod rhs event with
      | error fault' =>
        rw [right] at second
        exact ⟨second, plain.refl⟩
      | ok handler' =>
        rw [right] at second
        simp only [ofExcept_ok]
        split
        · exact ⟨hf, plain.refl⟩
        · exact call_comes plain second operands 1
    · simp only [if_neg missing, bind_apply, pure_apply]
      exact call_comes plain first operands 1

/-- The rest of a comparison. -/
theorem judge_comes (running frames : Nat) : m.Comes (fun _ => True) (judge running frames m) := by
  simp only [judge, bind_apply, get_apply]
  split
  · split
    · exact ⟨trivial, plain.modifyThread _ fun t ht => ht.modifyFrame fun _ => rfl⟩
    · simp only [bind_apply, pop_apply, push_apply]
      exact ⟨trivial, (plain.drop 1).trans ((plain.drop 1).plain.push (v := .boolean _) trivial)⟩
  · exact ⟨trivial, plain.refl⟩

end Exec

/-! ## Replies -/

/-- The values of the reply are plain. -/
def Reply.IsPlain : Reply → Prop
  | values vs | blocked _ _ vs => Value.AllPlain vs
  | entered _ _ _ | raised _ _ => True

theorem Reply.IsPlain.guarded {reply : Reply} (h : reply.IsPlain) : reply.guarded.IsPlain := by
  cases reply with
  | values vs => exact .cons rfl h
  | _ => exact h

/-- `r` is what comes of a call whose reply has plain values. -/
def Machine.RepliesPlain (m : Machine) (want : Nat) (r : EStateM.Result Fault Machine Unit) : Prop :=
  ∃ reply, m.Outcome want reply r ∧ reply.IsPlain

namespace Machine

variable {m m' : Machine} {want : Nat}

theorem RepliesPlain.failed (h : m.Sane) (fault : Fault) : m.RepliesPlain want (.error fault m) :=
  ⟨_, .failed h fault, trivial⟩

theorem RepliesPlain.finished (h : m.Sane) {vs : List Value} (plain : Value.AllPlain vs) :
    m.RepliesPlain want (.ok () (m.pushResults want vs)) :=
  ⟨_, .finished h vs, plain⟩

/-- Whatever is found to be called in the end gets plain arguments. -/
theorem Plain.protectedTarget (plain : m.Plain) {args : List Value} (h : Value.AllPlain args) :
    PlainOr (fun r => r.1.isPlain = true ∧ Value.AllPlain r.2) (m.protectedTarget args) := by
  induction args with
  | nil => trivial
  | cons callee rest ih =>
    obtain ⟨hc, hrest⟩ := List.forall_mem_cons.1 h
    by_cases nested : callee = .core .pcall
    · subst nested
      exact ih hrest
    · rw [Machine.protectedTarget]
      · exact plain.callTarget hc hrest
      · exact nested

theorem Plain.finalTarget (plain : m.Plain) {callee : Value} {args : List Value} (hc : callee.isPlain = true)
    (h : Value.AllPlain args) :
    PlainOr (fun r => r.1.isPlain = true ∧ Value.AllPlain r.2) (m.finalTarget callee args) := by
  have target := plain.callTarget hc h
  unfold Machine.finalTarget
  split
  · rename_i given found
    rw [found] at target
    exact plain.protectedTarget target.2
  · exact target

end Machine

namespace Exec

variable {m : Machine} {want : Nat}

/-- What a resume or yield hands over it was given. -/
theorem replies_of_follows {r : EStateM.Result Fault Machine Unit} {reply : Reply}
    {found : Except Fault (Value × List Value)} (out : m.Outcome want reply r) (follows : reply.Follows m found)
    (given : PlainOr (fun r => Value.AllPlain r.2) found) (none' : ∀ vs, reply ≠ .values vs) :
    m.RepliesPlain want r := by
  refine ⟨reply, out, ?_⟩
  cases reply with
  | values vs => exact absurd rfl (none' vs)
  | blocked n id vs =>
    rcases follows with ⟨args, rfl, -, rfl⟩ | rfl
    · exact .cons rfl given
    · exact fun v mem => given v (List.mem_cons_of_mem _ mem)
  | _ => trivial

variable (h : m.Sane)
include h

theorem create_replies (args : List Value) : m.RepliesPlain want (create args want m) := by
  simp only [create, bind_apply, get_apply]
  split
  · rename_i id _
    cases found : m.store.closures[id]? with
    | none => exact .failed h _
    | some c =>
      obtain ⟨alone, same⟩ := alone_ofClosure h (h.closures c (Array.mem_of_getElem? found))
      exact ⟨_, .values alone same, .cons rfl fun _ mem => absurd mem List.not_mem_nil⟩
  · exact .failed h _

theorem resume_replies {args : List Value} (plain : Value.AllPlain args) :
    m.RepliesPlain want (resume args want m) := by
  obtain ⟨reply, out, -, follows⟩ := resume_outcome h args want
  simp only [resume, bind_apply] at out ⊢
  rcases threadArgument_cases "coroutine.resume" args m with ⟨id, ok, -⟩ | ⟨fault, failed⟩
  · simp only [ok, get_apply] at out ⊢
    by_cases busy : m.running = id ∨ m.waiting.contains id = true
    · rw [if_pos busy]
      exact .failed h _
    · rw [if_neg busy] at out ⊢
      split
      · exact .failed h _
      · split
        · exact .finished h (.cons rfl fun _ mem => absurd mem List.not_mem_nil)
        · rename_i inside alive
          rw [if_neg inside, if_neg alive] at out
          refine replies_of_follows out follows plain fun vs same => ?_
          -- control has gone to another thread
          subst same
          generalize done : (set (_ : Machine) : Exec PUnit) m = r at out
          cases out with
          | values alone _ =>
            rw [set_apply] at done
            have other := congrArg Machine.running (EStateM.Result.ok.inj done).2
            simp only [Machine.pushResults, Machine.running_pushResultsOn, alone.running] at other
            exact busy (Or.inl other.symm)
  · simp only [failed]
    exact .failed h _

theorem callCoreWith_replies {f : CoreFunction} (other : f ≠ .pcall) (protectedCall : Exec Unit)
    {args : List Value} (plain : Value.AllPlain args) :
    m.RepliesPlain want (callCoreWith protectedCall f args want m) := by
  cases f with
  | pcall => exact absurd rfl other
  | create => exact create_replies h args
  | resume => exact resume_replies h plain
  | yield =>
    simp only [callCoreWith, yield, bind_apply, get_apply]
    cases waiting : m.waiting with
    | nil => exact .failed h _
    | cons resumer rest =>
      simp only [set_apply, Machine.deliver_control]
      exact ⟨_, .blocked (switched_of_switch h.rooted (.yield waiting) want (.boolean true :: args)), .cons rfl plain⟩
  | status =>
    simp only [callCoreWith, bind_apply]
    rcases threadArgument_cases "coroutine.status" args m with ⟨id, ok, -⟩ | ⟨fault, failed⟩
    · simp only [ok, get_apply]
      exact .finished h (.cons rfl fun _ mem => absurd mem List.not_mem_nil)
    · simp only [failed]
      exact .failed h _
  | dostring =>
    unfold callCoreWith dostring
    cases args.head? with
    | none => exact .failed h _
    | some v =>
      cases v with
      | string text =>
        simp only [bind_apply]
        cases compiled : Compiler.compileSource text "dostring" with
        | error fault => exact .failed h fault
        | ok unit =>
          have chunk : Closure.IsChunk ⟨unit, #[]⟩ := ⟨rfl, _, "dostring", compiled⟩
          rcases enter_outcome h chunk.fits [] want with ⟨-, out⟩ | ⟨-, out⟩ <;> exact ⟨_, out, trivial⟩
      | _ => exact .failed h _

omit h in
/-- A function of the host has plain results for plain arguments. -/
theorem callHost_replies (h : m.Sane) (plain : m.Plain) (id : Nat) {args : List Value} (given : Value.AllPlain args) :
    ∃ m', m.Alone m' ∧ m'.current = m.current ∧ ((∃ vs, callHost id args m = .ok vs m' ∧ Value.AllPlain vs) ∨
      ∃ fault, callHost id args m = .error fault m') := by
  obtain ⟨m', alone, same, which⟩ := callHost_cases h id args
  have comes := callHost_comes plain id given
  refine ⟨m', alone, same, which.imp_left fun ⟨vs, done⟩ => ⟨vs, done, ?_⟩⟩
  rw [done] at comes
  exact comes.1

omit h in
theorem call_plain_replies (h : m.Sane) (plain : m.Plain) {callee target : Value} {args given : List Value}
    (found : m.callTarget callee args = .ok (target, given)) (other : target ≠ .core .pcall)
    (hgiven : Value.AllPlain given) : m.RepliesPlain want (call callee args want m) := by
  simp only [call, bind_apply, get_apply, found, ofExcept_ok]
  cases target with
  | closure id =>
    simp only [bind_apply, get_apply]
    cases known : m.store.closures[id]? with
    | none => exact .failed h _
    | some c =>
      rcases enter_outcome h (h.closures c (Array.mem_of_getElem? known)) given want with ⟨-, out⟩ | ⟨-, out⟩ <;>
        exact ⟨_, out, trivial⟩
  | host id name =>
    simp only [bind_apply]
    obtain ⟨m', alone, same, ⟨vs, ok, hvs⟩ | ⟨fault, failed⟩⟩ := callHost_replies h plain id hgiven
    · simp only [ok]
      exact ⟨_, .values alone same, hvs⟩
    · simp only [failed]
      exact ⟨_, .fault alone same, trivial⟩
  | core f => exact callCoreWith_replies h (fun same => other (by rw [same])) _ hgiven
  | _ => exact .failed h _

omit h in
/-- The protected call gives flags, plain results or the payload of a plain fault. -/
theorem pcall_replies (h : m.Sane) (plain : m.Plain) {args : List Value} (given : Value.AllPlain args) (want : Nat) :
    m.RepliesPlain want (pcall args want m) := by
  have refused {m' : Machine} (h : m'.Sane) (want : Nat) {fault : Fault} (hf : fault.IsPlain) :
      m'.RepliesPlain want (pushFailure want fault m') :=
    .finished h (.cons rfl (.cons hf.toValue fun _ mem => absurd mem List.not_mem_nil))
  induction args generalizing m want with
  | nil => exact refused h want trivial
  | cons callee rest ih =>
    obtain ⟨hc, hrest⟩ := List.forall_mem_cons.1 given
    have noted : m.Flows (m.modifyCurrent (·.pushHandler want)) :=
      plain.modifyThread _ fun t ht => ⟨ht.captures, ht.upvalues⟩
    have sane : (m.modifyCurrent (·.pushHandler want)).Sane := h.alone (.modifyCurrent h _)
    by_cases nested : callee = .core .pcall
    · subst nested
      rw [pcall]
      obtain ⟨reply, out, flat⟩ := ih sane noted.plain hrest 0
      exact ⟨_, guarded_outcome h out, flat.guarded⟩
    · rw [pcall]
      case x_2 => exact nested
      have target := plain.callTarget hc hrest
      simp only [bind_apply, get_apply]
      cases found : m.callTarget callee rest with
      | error fault =>
        rw [found] at target
        exact refused h want target
      | ok r =>
        obtain ⟨v, args⟩ := r
        rw [found] at target
        obtain ⟨-, hargs⟩ := target
        cases v with
        | closure id =>
          simp only [bind_apply, get_apply]
          cases known : m.store.closures[id]? with
          | none => exact refused h want trivial
          | some c =>
            have fits := h.closures c (Array.mem_of_getElem? known)
            rcases protectedEnter_outcome h fits args want with ⟨-, out⟩ | ⟨-, out⟩ <;> exact ⟨_, out, trivial⟩
        | host id name =>
          simp only [bind_apply, get_apply]
          have comes := callHost_comes plain id hargs
          obtain ⟨m', alone, same, ⟨vs, ok, hvs⟩ | ⟨fault, failed⟩⟩ := callHost_replies h plain id hargs
          · simp only [ok, bind_apply, set_apply]
            exact ⟨_, .values alone same, .cons rfl hvs⟩
          · rw [failed] at comes
            simp only [failed, bind_apply, set_apply]
            exact ⟨_, .values alone same, .cons rfl (.cons comes.1.toValue fun _ mem => absurd mem List.not_mem_nil)⟩
        | core f =>
          simp only
          by_cases itself : f = .pcall
          · subst itself
            exact ⟨_, guarded_outcome h (.failed sane .stackOverflow), trivial⟩
          · obtain ⟨reply, out, flat⟩ := callCoreWith_replies sane itself (throw .stackOverflow) hargs
            exact ⟨_, guarded_outcome h out, flat.guarded⟩
        | _ => exact refused h want trivial

omit h in
/-- Every call of a plain value with plain arguments. -/
theorem call_replies (h : m.Sane) (plain : m.Plain) {callee : Value} {args : List Value}
    (hc : callee.isPlain = true) (given : Value.AllPlain args) (want : Nat) :
    m.RepliesPlain want (call callee args want m) := by
  have target := plain.callTarget hc given
  cases found : m.callTarget callee args with
  | error fault =>
    simp only [call, bind_apply, get_apply, found, ofExcept_error]
    exact .failed h fault
  | ok r =>
    obtain ⟨v, args'⟩ := r
    rw [found] at target
    by_cases itself : v = .core .pcall
    · subst itself
      simp only [call, bind_apply, get_apply, found, ofExcept_ok]
      exact pcall_replies h plain target.2 want
    · exact call_plain_replies h plain found itself target.2

end Exec

end ScriptEngine
