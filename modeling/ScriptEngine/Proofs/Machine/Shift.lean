import ScriptEngine.Proofs.Machine.Blindness

/-!
# What instructions do to the depth of the stack

How far an action moves the top of the running thread's stack does not depend on the values there
(`Exec.Shifts`). Where an instruction finds its operands on the stack, and asks for no call, the depth
changes by what the static account says (`perform_leaves`); a call of a function of the host leaves its
results, and a call of a closure a new frame above them (`Machine.Direct`). This holds of any machine and
any code.
-/

set_option linter.dupNamespace false

namespace ScriptEngine

/-- The running thread runs on, with `size` stack slots, the given frames and the handlers it had. -/
structure Machine.Leaves (m m' : Machine) (size : Nat) (frames : List Frame) : Prop where
  running : m'.running = m.running
  waiting : m'.waiting = m.waiting
  inside : m'.running < m'.threads.size
  handlers : m'.current.handlers = m.current.handlers
  stack : m'.current.stack.size = size
  frames : m'.current.frames = frames

namespace Machine.Leaves

variable {m m' m'' : Machine} {size size' : Nat} {frames frames' : List Frame}

theorem of_threads (inside : m.running < m.threads.size) (threads : m'.threads = m.threads)
    (running : m'.running = m.running) (waiting : m'.waiting = m.waiting) :
    m.Leaves m' m.current.stack.size m.current.frames := by
  have same : m'.current = m.current := by
    rw [current, current, thread, thread, threads, running]
  exact ⟨running, waiting, by rwa [running, threads], by rw [same], by rw [same], by rw [same]⟩

theorem refl (inside : m.running < m.threads.size) :
    m.Leaves m m.current.stack.size m.current.frames :=
  of_threads inside rfl rfl rfl

theorem trans (first : m.Leaves m' size frames) (second : m'.Leaves m'' size' frames') :
    m.Leaves m'' size' frames' :=
  ⟨second.running.trans first.running, second.waiting.trans first.waiting, second.inside,
    second.handlers.trans first.handlers, second.stack, second.frames⟩

theorem modifyCurrent (inside : m.running < m.threads.size) {f : Thread → Thread}
    (handlers : (f m.current).handlers = m.current.handlers) (stack : (f m.current).stack.size = size)
    (frames : (f m.current).frames = frames') : m.Leaves (m.modifyCurrent f) size frames' := by
  refine ⟨rfl, rfl, by simpa using inside, ?_, ?_, ?_⟩
  · rw [current_modifyCurrent inside, handlers]
  · rw [current_modifyCurrent inside, stack]
  · rw [current_modifyCurrent inside, frames]

theorem drop (inside : m.running < m.threads.size) (n : Nat) :
    m.Leaves (m.drop n) (m.current.stack.size - n) m.current.frames :=
  modifyCurrent inside rfl (by simp) rfl

theorem pushResults (inside : m.running < m.threads.size) (want : Nat) (vs : List Value) :
    m.Leaves (m.pushResults want vs) (m.current.stack.size + slots want) m.current.frames := by
  refine ⟨by simp [Machine.pushResults], by simp [Machine.pushResults],
    by simpa [Machine.pushResults] using inside, ?_, ?_, ?_⟩
  · rw [current_pushResults inside]
    rfl
  · rw [current_pushResults inside]
    simp [Thread.withCells]
  · rw [current_pushResults inside]
    rfl

theorem push (inside : m.running < m.threads.size) (v : Value) :
    m.Leaves (m.push v) (m.current.stack.size + 1) m.current.frames :=
  pushResults inside 1 [v]

/-- Operands give way to a value. -/
theorem drop_push (inside : m.running < m.threads.size) (n : Nat) (v : Value) :
    m.Leaves ((m.drop n).push v) (m.current.stack.size - n + 1) m.current.frames := by
  have dropped := drop inside n
  have pushed := push dropped.inside v
  rw [dropped.stack, dropped.frames] at pushed
  exact dropped.trans pushed

end Machine.Leaves

/-! ## Actions -/

namespace Exec

open Machine (Leaves)

variable {α β : Type} {f g : Nat → Nat}

/-- Wherever the action succeeds it keeps the frames, and makes `f n` stack slots of `n`. -/
def Shifts (x : Exec α) (f : Nat → Nat) : Prop :=
  ∀ (m : Machine) (a : α) (m' : Machine), m.running < m.threads.size → x m = .ok a m' →
    m.Leaves m' (f m.current.stack.size) m.current.frames

theorem Shifts.bind {x : Exec α} {y : α → Exec β} (first : Shifts x f) (second : ∀ a, Shifts (y a) g) :
    Shifts (x >>= y) (g ∘ f) := by
  intro m b m'' inside done
  rw [bind_apply] at done
  cases done' : x m with
  | error fault m' =>
    rw [done'] at done
    cases done
  | ok a m' =>
    rw [done'] at done
    have leaves := first m a m' inside done'
    have leaves' := second a m' b m'' leaves.inside done
    rw [leaves.stack, leaves.frames] at leaves'
    exact leaves.trans leaves'

/-- First comes what moves nothing. -/
theorem Shifts.then {x : Exec α} {y : α → Exec β} (first : Shifts x id) (second : ∀ a, Shifts (y a) g) :
    Shifts (x >>= y) g :=
  first.bind second

theorem shifts_throw (fault : Fault) : Shifts (throw fault : Exec α) f := by
  intro m a m' _ done
  cases done

theorem shifts_pure (a : α) : Shifts (pure a : Exec α) id := by
  intro m a m' inside done
  cases done
  exact .refl inside

theorem shifts_get : Shifts (get : Exec Machine) id := by
  intro m a m' inside done
  cases done
  exact .refl inside

theorem shifts_ofExcept (e : Except Fault α) : Shifts (ofExcept e) id := by
  cases e with
  | ok a => exact shifts_pure a
  | error fault => exact shifts_throw fault

theorem shifts_pop : Shifts pop (· - 1) := by
  intro m a m' inside done
  rw [pop_apply] at done
  cases done
  exact .drop inside 1

theorem shifts_push (v : Value) : Shifts (push v) (· + 1) := by
  intro m a m' inside done
  cases done
  exact .push inside v

theorem shifts_pushResults (want : Nat) (vs : List Value) :
    Shifts (pushResults want vs) (· + slots want) := by
  intro m a m' inside done
  cases done
  exact .pushResults inside want vs

theorem shifts_onStore (action : HostAction α) : Shifts (onStore action) id := by
  intro m a m' inside done
  rw [onStore_apply] at done
  rcases ran : action.run.run m.store with ⟨_ | a, s⟩ <;> rw [ran] at done <;> cases done
  exact .of_threads inside rfl rfl rfl

theorem shifts_setCell (cell : Nat) (v : Value) : Shifts (setCell cell v) id := by
  intro m a m' inside done
  cases done
  exact .of_threads inside rfl rfl rfl

theorem shifts_setGlobal (name : String) (v : Value) : Shifts (modify (·.setGlobal name v)) id := by
  intro m a m' inside done
  cases done
  exact .of_threads inside rfl rfl rfl

theorem shifts_modifyCurrent {h : Thread → Thread} (handlers : ∀ t, (h t).handlers = t.handlers)
    (stack : ∀ t, (h t).stack.size = f t.stack.size) (frames : ∀ t, (h t).frames = t.frames) :
    Shifts (modify (·.modifyCurrent h)) f := by
  intro m a m' inside done
  cases done
  exact .modifyCurrent inside (handlers _) (stack _) (frames _)

theorem shifts_slot (offset : Nat) : Shifts (slot offset) id :=
  shifts_get.then fun m => by
    cases m.current.cell? offset with
    | some cell => exact shifts_pure cell
    | none => exact shifts_throw _

theorem shifts_peek (offset : Nat) : Shifts (peek offset) id :=
  (shifts_slot offset).then fun _ => shifts_get.then fun _ => shifts_pure _

theorem shifts_constant (u : CodeUnit) (i : Nat) : Shifts (constant u i) id := by
  unfold constant
  split
  · exact shifts_pure _
  · exact shifts_throw _

theorem shifts_globalName (u : CodeUnit) (i : Nat) : Shifts (globalName u i) id :=
  (shifts_constant u i).then fun v => by
    cases v with
    | string name => exact shifts_pure name
    | _ => exact shifts_get.then fun _ => shifts_throw _

theorem shifts_upvalue (c : Closure) (i : Nat) : Shifts (upvalue c i) id := by
  unfold upvalue
  split
  · exact shifts_pure _
  · exact shifts_throw _

theorem shifts_index (target key : Value) : Shifts (index target key) id :=
  shifts_get.then fun m => by
    cases target with
    | table id => exact shifts_ofExcept _
    | string s =>
      cases m.global "string" with
      | table id => exact shifts_ofExcept _
      | _ => exact shifts_throw _
    | _ => exact shifts_throw _

theorem shifts_writeFrom (table : Nat) (start : Float) (offset : Nat) (vs : List Value) :
    Shifts (writeFrom table start offset vs) id := by
  induction vs generalizing offset with
  | nil => exact shifts_pure ()
  | cons v vs ih => exact (shifts_onStore _).then fun _ => ih (offset + 1)

theorem shifts_putTable : Shifts putTable (· - 1 - 1 - 1) := by
  refine shifts_pop.bind (g := (· - 1 - 1)) fun value => shifts_pop.bind (g := (· - 1)) fun key =>
    shifts_pop.bind (g := id) fun target => ?_
  split
  · split
    · exact shifts_writeFrom _ _ _ _
    · exact shifts_onStore _
  · exact shifts_throw _

theorem shifts_forM_push (vs : List Value) : Shifts (vs.forM push) (· + vs.length) := by
  induction vs with
  | nil => exact shifts_pure ()
  | cons v vs ih =>
    intro m a m' inside done
    have leaves := (shifts_push v).bind (fun _ => ih) m a m' inside done
    rwa [Function.comp, Nat.add_assoc, Nat.add_comm 1] at leaves

/-- Expanding a multi-value replaces its slot. -/
theorem shifts_popVarArgs (count : Nat) (consume : Bool) : Shifts (popVarArgs count consume)
    fun n => n - 1 + (if consume then 0 else 1) + count := by
  have rest (vs : List Value) : Shifts ((Value.adjust count vs).forM push) (· + count) := by
    have pushes := shifts_forM_push (Value.adjust count vs)
    rwa [length_adjust] at pushes
  have popped : Shifts (modify (·.modifyCurrent fun t => { t with stack := t.stack.pop })) (· - 1) :=
    shifts_modifyCurrent (fun _ => rfl) (fun _ => Array.size_pop) fun _ => rfl
  refine (shifts_peek 1).then fun v =>
    popped.bind (g := fun n => n + (if consume then 0 else 1) + count) fun _ => ?_
  cases consume with
  | true => exact rest _
  | false => exact (shifts_push _).bind (g := (· + count)) fun _ => rest _

theorem shifts_forControl (offset : Nat) (message : String) : Shifts (forControl offset message) id := by
  refine (shifts_slot offset).then fun cell => shifts_get.then fun m => ?_
  cases (m.store.cell cell).coerce? with
  | some n => exact shifts_setCell _ _
  | none => exact shifts_throw _

theorem shifts_forPrep : Shifts forPrep id := by
  refine (shifts_forControl _ _).then fun _ => (shifts_forControl _ _).then fun _ =>
    (shifts_forControl _ _).then fun _ => (shifts_peek 1).then fun v => ?_
  split
  · exact shifts_throw _
  · exact shifts_pure _

theorem shifts_closeVars (count : Nat) : Shifts (closeVars count) id := by
  refine shifts_get.then fun m => ?_
  dsimp only
  split
  · exact shifts_throw _
  · exact shifts_modifyCurrent (fun _ => rfl) (fun _ => rfl) fun _ => rfl

theorem shifts_makeClosure (u : CodeUnit) (id : Nat) : Shifts (makeClosure u id) (· + 1) := by
  unfold makeClosure
  split
  · exact shifts_get.then fun _ => (shifts_onStore _).then fun _ =>
      shifts_push _
  · exact shifts_throw _

theorem shifts_callHost (host : Nat) (args : List Value) : Shifts (callHost host args) id :=
  shifts_get.then fun m => by
    cases m.hosts[host]? with
    | none => exact shifts_pure _
    | some f => exact shifts_onStore _

end Exec

/-! ## Instructions that call nothing -/

namespace Machine

variable {m m' : Machine} {F : Frame} {rest : List Frame} {op : Opcode} {a b : Nat} {callee : Value}
  {args : List Value} {want : Nat}

open Exec

/-- The instruction is over: the depth has changed by its static effect, and its frame goes on at an
address that can follow. -/
def Finishes (m m' : Machine) (F : Frame) (rest : List Frame) (op : Opcode) (a b : Nat) : Prop :=
  ∃ size ip, m.Leaves m' size ({ F with ip } :: rest) ∧
    (size : Int) = m.current.stack.size + Instruction.stackEffect op a b ∧
    ((ip = F.ip ∧ op.continues = true) ∨ (ip = a ∧ op.isJump = true))

theorem Leaves.finishes {size : Nat} (leaves : m.Leaves m' size m.current.frames)
    (frames : m.current.frames = F :: rest)
    (effect : (size : Int) = m.current.stack.size + Instruction.stackEffect op a b)
    (next : op.continues = true) : m.Finishes m' F rest op a b :=
  ⟨size, F.ip, frames ▸ leaves, effect, Or.inl ⟨rfl, next⟩⟩

theorem callMetamethod_fails {event : String} {lhs rhs : Value} (n : Nat)
    (none' : m.handler? event lhs rhs = none) (fault : Fault) {u : Unit} :
    callMetamethod event lhs rhs fault (m.drop n) ≠ .ok u m' := by
  intro done
  rcases Poised.callMetamethod_cases event lhs rhs fault (m.drop n) with
    ⟨fault', failed, -⟩ | ⟨v, found, -⟩
  · rw [failed] at done
    cases done
  · cases none'.symm.trans found

/-- An operator without a handler has the operands it is made for. -/
theorem arithmetic_finishes (inside : m.running < m.threads.size) {operator : Arithmetic}
    (which : op.arithmetic? = some operator) (quiet : m.request? op a b = none) {u : Unit}
    (done : arithmetic operator m = .ok u m') :
    m.Leaves m' (m.current.stack.size - 2 + 1) m.current.frames := by
  rw [arithmetic_apply inside] at done
  split at done
  · cases done
    exact .drop_push inside 2 _
  · rename_i others
    refine absurd done (callMetamethod_fails 2 ?_ _)
    rw [request?_arithmetic which] at quiet
    split at quiet
    · rename_i both
      obtain ⟨x, lhs⟩ := Option.isSome_iff_exists.1 both.1
      obtain ⟨y, rhs⟩ := Option.isSome_iff_exists.1 both.2
      exact absurd rhs (others x y lhs)
    · simpa using quiet

theorem compare_finishes (inside : m.running < m.threads.size) {test : Value → Value → Option Bool}
    {event : String} (quiet : (if (test (m.top 2) (m.top 1)).isSome then none
      else (m.handler? event (m.top 2) (m.top 1)).map (·, [m.top 2, m.top 1], 1)) = none) {u : Unit}
    (done : Exec.compare test event m = .ok u m') :
    m.Leaves m' (m.current.stack.size - 2 + 1) m.current.frames := by
  rw [Exec.compare, pop_pop inside] at done
  cases decided : test (m.top 2) (m.top 1) with
  | some result =>
    rw [decided] at done
    cases done
    exact .drop_push inside 2 _
  | none =>
    simp only [decided, Option.isSome_none, Bool.false_eq_true, if_false, Option.map_eq_none_iff] at quiet
    simp only [decided, bind_apply, get_apply] at done
    cases called : callMetamethod event (m.top 2) (m.top 1)
      (.compare (m.top 2).typeName (m.top 1).typeName) (m.drop 2) with
    | error fault k =>
      rw [called] at done
      cases done
    | ok u k => exact absurd called (callMetamethod_fails 2 quiet _)

theorem length_finishes (inside : m.running < m.threads.size)
    (quiet : m.handler? "__len" (m.top 1) (m.top 1) = none) {u : Unit} (done : length m = .ok u m') :
    m.Leaves m' (m.current.stack.size - 1 + 1) m.current.frames := by
  rw [length_apply] at done
  simp only [handler?] at quiet
  cases looked : m.metamethod (m.top 1) "__len" with
  | error fault =>
    rw [looked] at done
    cases done
  | ok handler =>
    simp only [looked] at quiet done
    by_cases missing : handler.isNil = true
    · simp only [if_pos missing] at done
      cases measured : measure? m (m.top 1) with
      | some n =>
        rw [measured] at done
        cases done
        exact .drop_push inside 1 _
      | none =>
        rw [measured] at done
        cases done
    · simp [missing] at quiet

/-- A jump that may be taken. -/
theorem jumps (inside : m.running < m.threads.size) (frames : m.current.frames = F :: rest)
    (address : Nat) : m.Leaves (m.modifyCurrent (·.modifyFrame ({ · with ip := address })))
      m.current.stack.size ({ F with ip := address } :: rest) := by
  refine .modifyCurrent inside ?_ ?_ ?_ <;> simp only [Thread.modifyFrame, frames]

theorem jmpTrue_finishes (inside : m.running < m.threads.size) (frames : m.current.frames = F :: rest)
    (enough : 1 ≤ m.current.stack.size) {u : Unit}
    (done : perform F.closure .jmpTrue a b m = .ok u m') : m.Finishes m' F rest .jmpTrue a b := by
  -- the condition is taken or left, and then control goes on or away
  have leaps {k : Machine} {size : Nat} (leaves : m.Leaves k size m.current.frames)
      (effect : (size : Int) = m.current.stack.size + Instruction.stackEffect .jmpTrue a b) {v : Value}
      (done : (if v.isTruthy then Exec.jump a else pure () : Exec Unit) k = .ok u m') :
      m.Finishes m' F rest .jmpTrue a b := by
    have kept : k.current.frames = F :: rest := leaves.frames.trans frames
    by_cases truthy : v.isTruthy = true
    · rw [if_pos truthy] at done
      cases done
      have jumped := jumps leaves.inside kept a
      rw [leaves.stack] at jumped
      exact ⟨size, a, leaves.trans jumped, effect, Or.inr ⟨rfl, rfl⟩⟩
    · rw [if_neg truthy] at done
      cases done
      exact leaves.finishes frames effect rfl
  simp only [perform] at done
  by_cases looks : b = 1
  · simp only [if_pos looks, bind_apply] at done
    cases read : peek 1 m with
    | error fault k =>
      rw [read] at done
      cases done
    | ok v k =>
      rw [read] at done
      exact leaps (shifts_peek 1 m v k inside read) (by simp [Instruction.stackEffect, looks]) done
  · simp only [if_neg looks, bind_apply, pop_apply] at done
    exact leaps (.drop inside 1) (by simp only [Instruction.stackEffect, if_neg looks]; omega) done

/-- Where its operands are on the stack, an instruction that asks for no call has its static effect. -/
theorem perform_finishes (inside : m.running < m.threads.size) (frames : m.current.frames = F :: rest)
    (enough : op.touched a b ≤ m.current.stack.size) (expand : op = .popVarArgs → b ≤ 1)
    (other : op ≠ .ret) (quiet : m.request? op a b = none) {u : Unit}
    (done : perform F.closure op a b m = .ok u m') : m.Finishes m' F rest op a b := by
  have ends {x : Exec Unit} {f : Nat → Nat} (shifts : Shifts x f) (done : x m = .ok u m')
      (effect : (f m.current.stack.size : Int) = m.current.stack.size + Instruction.stackEffect op a b)
      (next : op.continues = true) : m.Finishes m' F rest op a b :=
    (shifts m u m' inside done).finishes frames effect next
  cases op with
  | loadK => exact ends ((shifts_constant _ _).then fun _ => shifts_push _) done rfl rfl
  | getStack => exact ends ((shifts_peek _).then fun _ => shifts_push _) done rfl rfl
  | putStack =>
    exact ends ((shifts_slot _).then fun _ => shifts_pop.bind fun _ => shifts_setCell _ _) done
      (Int.ofNat_sub enough) rfl
  | popStack =>
    have taken : Shifts (perform F.closure .popStack a b) (· - a) :=
      shifts_modifyCurrent (fun _ => rfl) (fun _ => by simp) fun _ => rfl
    exact ends taken done (Int.ofNat_sub enough) rfl
  | getGlobal =>
    exact ends ((shifts_globalName _ _).then fun _ => shifts_get.then fun _ => shifts_push _) done rfl rfl
  | putGlobal =>
    exact ends ((shifts_globalName _ _).then fun _ => shifts_pop.bind fun _ => shifts_setGlobal _ _) done
      (Int.ofNat_sub enough) rfl
  | add | sub | mul | div | mod | pow =>
    refine (arithmetic_finishes inside rfl quiet done).finishes frames ?_ rfl
    simp only [Opcode.touched, Opcode.operands] at enough
    simp only [Instruction.stackEffect]
    omega
  | neg =>
    simp only [perform, negate_apply] at done
    cases number : (m.top 1).number? with
    | some n =>
      rw [number] at done
      cases done
      refine Leaves.finishes (.drop_push inside 1 _) frames ?_ rfl
      simp only [Opcode.touched, Opcode.operands] at enough
      simp only [Instruction.stackEffect]
      omega
    | none =>
      rw [number] at done
      exact absurd done (callMetamethod_fails 1 (by simpa [request?, number] using quiet) _)
  | concat =>
    simp only [perform, concat_apply inside] at done
    cases text : (m.top 2).concat? (m.top 1) with
    | some s =>
      rw [text] at done
      cases done
      refine Leaves.finishes (.drop_push inside 2 _) frames ?_ rfl
      simp only [Opcode.touched, Opcode.operands] at enough
      simp only [Instruction.stackEffect]
      omega
    | none =>
      rw [text] at done
      exact absurd done (callMetamethod_fails 2 (by simpa [request?, text] using quiet) _)
  | len =>
    refine (length_finishes inside (by simpa [request?] using quiet) done).finishes frames ?_ rfl
    simp only [Opcode.touched, Opcode.operands] at enough
    simp only [Instruction.stackEffect]
    omega
  | eq | and | or =>
    refine ends (shifts_pop.bind fun _ => shifts_pop.bind fun _ => shifts_push _) done ?_ rfl
    simp only [Opcode.touched, Opcode.operands] at enough
    simp only [Instruction.stackEffect, Function.comp]
    omega
  | not =>
    refine ends (shifts_pop.bind fun _ => shifts_push _) done ?_ rfl
    simp only [Opcode.touched, Opcode.operands] at enough
    simp only [Instruction.stackEffect, Function.comp]
    omega
  | less | lessEq =>
    refine (compare_finishes inside quiet done).finishes frames ?_ rfl
    simp only [Opcode.touched, Opcode.operands] at enough
    simp only [Instruction.stackEffect]
    omega
  | newTable => exact ends ((shifts_onStore _).then fun _ => shifts_push _) done rfl rfl
  | putTable =>
    refine ends shifts_putTable done ?_ rfl
    simp only [Opcode.touched, Opcode.operands] at enough
    simp only [Instruction.stackEffect]
    omega
  | getTable =>
    refine ends (shifts_pop.bind fun _ => shifts_pop.bind fun _ => (shifts_index _ _).then fun _ =>
      shifts_push _) done ?_ rfl
    simp only [Opcode.touched, Opcode.operands] at enough
    simp only [Instruction.stackEffect, Function.comp]
    omega
  | call => cases quiet
  | jmp =>
    cases done
    exact ⟨_, a, jumps inside frames a, by simp [Instruction.stackEffect], Or.inr ⟨rfl, rfl⟩⟩
  | jmpTrue => exact jmpTrue_finishes inside frames enough done
  | popVarArgs =>
    refine ends (shifts_popVarArgs _ _) done ?_ rfl
    have := expand rfl
    simp only [Opcode.touched] at enough
    simp only [Instruction.stackEffect, decide_eq_true_eq]
    split <;> omega
  | forPrep => exact ends shifts_forPrep done (by simp [Instruction.stackEffect]) rfl
  | closeVars => exact ends (shifts_closeVars _) done (by simp [Instruction.stackEffect]) rfl
  | popClosed =>
    have released : Shifts (perform F.closure .popClosed a b) id :=
      shifts_modifyCurrent (fun _ => rfl) (fun _ => rfl) fun _ => rfl
    exact ends released done (by simp [Instruction.stackEffect]) rfl
  | closure => exact ends (shifts_makeClosure _ _) done rfl rfl
  | getUpval =>
    exact ends ((shifts_upvalue _ _).then fun _ => shifts_get.then fun _ => shifts_push _) done rfl rfl
  | putUpval =>
    exact ends (shifts_pop.bind fun _ => (shifts_upvalue _ _).then fun _ => shifts_setCell _ _) done
      (Int.ofNat_sub enough) rfl
  | ret => exact absurd rfl other

/-! ## Calls of closures and of functions of the host -/

/-- The call is over and its results are there, or a closure has been entered for it. -/
inductive Direct (m m' : Machine) (want : Nat) (Enters : Closure → Prop) : Prop where
  | answered (leaves : m.Leaves m' (m.current.stack.size + slots want) m.current.frames)
  | entered {f : Frame} (enters : Enters f.closure) (start : f.ip = 0)
      (base : f.base = m.current.stack.size) (wants : f.want = want)
      (leaves : m.Leaves m' (m.current.stack.size + 1) (f :: m.current.frames))

theorem enter_leaves (inside : m.running < m.threads.size) {c : Closure} {n : Nat} {u : Unit}
    (done : Exec.enter c args want n m = .ok u m') :
    ∃ f : Frame, f.closure = c ∧ f.ip = 0 ∧ f.base = m.current.stack.size ∧ f.want = want ∧
      m.Leaves m' (m.current.stack.size + 1) (f :: m.current.frames) := by
  rw [enter_apply] at done
  split at done
  · cases done
  · cases done
    have framed : m.Leaves (m.modifyCurrent (Thread.framed c want n)) m.current.stack.size
        (⟨c, 0, m.current.stack.size, m.current.captures.size, want, n, false⟩ :: m.current.frames) :=
      .modifyCurrent inside rfl rfl rfl
    have pushed := Leaves.push framed.inside (.multi args)
    rw [framed.stack, framed.frames] at pushed
    exact ⟨_, rfl, rfl, rfl, rfl, framed.trans pushed⟩

/-- A call that comes to no core function. -/
theorem call_direct (inside : m.running < m.threads.size) {Enters : Closure → Prop}
    (core : ∀ f given, m.callTarget callee args ≠ .ok (.core f, given))
    (enters : ∀ id given c, m.callTarget callee args = .ok (.closure id, given) →
      m.store.closures[id]? = some c → Enters c) {u : Unit}
    (done : Exec.call callee args want m = .ok u m') : m.Direct m' want Enters := by
  simp only [Exec.call, bind_apply, get_apply] at done
  cases target : m.callTarget callee args with
  | error fault =>
    rw [target] at done
    cases done
  | ok found =>
    obtain ⟨v, given⟩ := found
    simp only [target, ofExcept_ok] at done
    cases v with
    | closure id =>
      simp only [bind_apply, get_apply] at done
      cases found : m.store.closures[id]? with
      | none =>
        rw [found] at done
        cases done
      | some c =>
        rw [found] at done
        obtain ⟨f, closure, start, base, wants, leaves⟩ := enter_leaves inside done
        exact .entered (closure ▸ enters id given c target found) start base wants leaves
    | host id name =>
      exact .answered ((shifts_callHost id given).then (fun _ => shifts_pushResults want _) m u m' inside done)
    | core f => exact absurd target (core f given)
    | _ => cases done

/-- A comparison turns the result into a truth value, or has its frame do so. -/
theorem Direct.judge {Enters : Closure → Prop} (direct : m.Direct m' 1 Enters) {u : Unit} {m'' : Machine}
    (done : Exec.judge m.running m.current.frames.length m' = .ok u m'') : m.Direct m'' 1 Enters := by
  simp only [Exec.judge, bind_apply, get_apply] at done
  cases direct with
  | answered leaves =>
    simp only [leaves.running, leaves.frames, if_true, Nat.lt_irrefl, if_false] at done
    have judged := shifts_pop.bind (fun v => shifts_push (.boolean v.isTruthy)) m' u m'' leaves.inside done
    rw [leaves.stack, leaves.frames] at judged
    exact .answered (leaves.trans judged)
  | @entered f enters start base wants leaves =>
    simp only [leaves.running, leaves.frames, if_true, List.length_cons, Nat.lt_succ_self, set_apply] at done
    cases done
    refine .entered (f := { f with isCondition := true }) enters start base wants
      (leaves.trans (.modifyCurrent leaves.inside ?_ ?_ ?_))
    · simp only [Thread.modifyFrame, leaves.frames]
    · simp only [Thread.modifyFrame, leaves.frames]
      exact leaves.stack
    · simp only [Thread.modifyFrame, leaves.frames]

/-- An instruction that calls takes its operands, and then there are results or a frame in their place. -/
theorem perform_direct (inside : m.running < m.threads.size) (frames : m.current.frames = F :: rest)
    (asked : m.request? op a b = some (callee, args, want)) {Enters : Closure → Prop}
    (core : ∀ f given, m.callTarget callee args ≠ .ok (.core f, given))
    (enters : ∀ id given c, m.callTarget callee args = .ok (.closure id, given) →
      m.store.closures[id]? = some c → Enters c) {u : Unit}
    (done : perform F.closure op a b m = .ok u m') : (m.drop (op.touched a b)).Direct m' want Enters := by
  have dropped := Leaves.drop inside (op.touched a b)
  have target : (m.drop (op.touched a b)).callTarget callee args = m.callTarget callee args := rfl
  have called {u : Unit} {k : Machine}
      (done : Exec.call callee args want (m.drop (op.touched a b)) = .ok u k) :
      (m.drop (op.touched a b)).Direct k want Enters :=
    call_direct dropped.inside (by rwa [target]) (by rwa [target]) done
  rcases calls_of_request inside frames asked with performs | ⟨rfl, performs⟩
  · rw [performs] at done
    exact called done
  · rw [performs, bind_apply] at done
    cases made : Exec.call callee args 1 (m.drop (op.touched a b)) with
    | error fault k =>
      rw [made] at done
      cases done
    | ok v k =>
      rw [made] at done
      refine (called made).judge (u := u) ?_
      rw [dropped.frames, frames]
      exact done

end Machine

end ScriptEngine
