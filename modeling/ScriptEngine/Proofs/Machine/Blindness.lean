import ScriptEngine.Proofs.Machine.Footing
import ScriptEngine.Proofs.Machine.Request

/-!
# Instructions are blind to what their frame stands on

An instruction that finds its operands above the base of its frame does the same on other ground
(`Grounded.performs`), as far as the call that it makes does; and so does the return that leaves the
frame (`Grounded.returnFrom`). With the move to the instruction this is a whole step
(`Machine.step_onto`), in compiled programs (`Poises.step_onto`) and wherever else operands are known to
be there.
-/

set_option linter.dupNamespace false

namespace ScriptEngine

namespace Machine.Stands

variable {g : Ground} {m : Machine}

/-- A value is popped for the rest. -/
theorem pops (h : m.Stands g) {α : Type} {f : Value → Exec α}
    (own : g.base + 1 ≤ m.current.stack.size) (rest : Blind g (f (m.top 1)) (m.drop 1)) :
    Blind g (Exec.pop >>= f) m := by
  refine (Blind.pop h own).bind fun v m' popped => ?_
  rw [Exec.pop_apply] at popped
  cases popped
  exact rest

/-- Values are popped for the rest. -/
theorem spreads (h : m.Stands g) {α : Type} {f : List Value → Exec α} {n : Nat}
    (own : g.base + n ≤ m.current.stack.size) (rest : Blind g (f (m.spread n)) (m.drop n)) :
    Blind g (Exec.popSpread n >>= f) m := by
  refine (Blind.popSpread h own).bind fun vs m' popped => ?_
  rw [Exec.popSpread_eq] at popped
  cases popped
  exact rest

end Machine.Stands

/-- The call does the same on other ground. It takes nothing from its thread, and if it is over at once
its results are there. -/
structure Machine.Answers (g : Ground) (m : Machine) (callee : Value) (args : List Value) (want : Nat) :
    Prop where
  blind : Blind g (Exec.call callee args want) m
  grows : ∀ u m', Exec.call callee args want m = .ok u m' →
    m.running < m'.threads.size ∧
      m.current.stack.size ≤ (m'.thread m.running).stack.size ∧
      m.current.frames.length ≤ (m'.thread m.running).frames.length ∧
      m.current.handlers.length ≤ (m'.thread m.running).handlers.length ∧
      (m'.running = m.running → (m'.thread m.running).frames.length ≤ m.current.frames.length →
        m.current.stack.size + slots want ≤ (m'.thread m.running).stack.size)

/-- In compiled programs every call does. -/
theorem Machine.Sane.answers {g : Ground} {m : Machine} (sane : m.Sane) (stands : m.Stands g)
    (callee : Value) (args : List Value) (want : Nat) : m.Answers g callee args want where
  blind := Blind.call stands sane callee args want
  grows u m' called := by
    obtain ⟨reply, out, -⟩ := Exec.call_outcome sane callee args want
    rw [called] at out
    exact out.grows sane

/-- The innermost frame `F` stands on the ground and is about to perform an instruction whose operands
are above its base. -/
structure Grounded (g : Ground) (m : Machine) (F : Frame) (rest : List Frame) (op : Opcode) (a b : Nat) :
    Prop where
  stands : m.Stands g
  frames : m.current.frames = F :: rest
  base : g.base = F.base
  above : g.frames = rest.length
  touched : g.base + op.touched a b ≤ m.current.stack.size
  offset : op = .getStack ∨ op = .putStack → 1 ≤ a ∧ g.base + a ≤ m.current.stack.size
  answers : ∀ callee args want, m.request? op a b = some (callee, args, want) →
    (m.drop (op.touched a b)).Answers g callee args want

namespace Grounded

variable {g : Ground} {m : Machine} {F : Frame} {rest : List Frame} {op : Opcode} {a b : Nat}

open Exec

theorem own (h : Grounded g m F rest op a b) {n : Nat} (touched : n ≤ op.touched a b) :
    g.base + n ≤ m.current.stack.size :=
  Nat.le_trans (Nat.add_le_add_left touched _) h.touched

/-- Operators that push a value in the place of their operands. -/
theorem pushes (h : Grounded g m F rest op a b) {n : Nat} (touched : n ≤ op.touched a b)
    {x : Exec Unit} {v : Machine → Value} (does : ∀ k : Machine, k.running < k.threads.size →
      x k = .ok () ((k.drop n).push (v k))) (same : v (m.onto g) = v m) : Blind g x m := by
  have own := h.own touched
  unfold Blind
  rw [does m h.stands.inside, does (m.onto g) (by simpa using h.stands.inside), same,
    h.stands.drop own, (h.stands.dropped own).push]
  rfl

theorem constant (u : CodeUnit) (i : Nat) : Blind g (Exec.constant u i) m := by
  unfold Exec.constant
  split <;> rfl

theorem constant_state {u : CodeUnit} {i : Nat} {v : Value} {m' : Machine}
    (found : Exec.constant u i m = .ok v m') : m = m' := by
  unfold Exec.constant at found
  cases at' : u.constants[i]? with
  | none =>
    rw [at'] at found
    cases found
  | some v =>
    rw [at'] at found
    cases found
    rfl

theorem globalName (u : CodeUnit) (i : Nat) : Blind g (Exec.globalName u i) m := by
  refine (constant u i).bind fun v m' _ => ?_
  cases v <;> rfl

theorem globalName_state {u : CodeUnit} {i : Nat} {name : String} {m' : Machine}
    (found : Exec.globalName u i m = .ok name m') : m = m' := by
  unfold Exec.globalName at found
  rw [bind_apply] at found
  cases read : Exec.constant u i m with
  | error fault k =>
    rw [read] at found
    cases found
  | ok v k =>
    obtain rfl := constant_state read
    rw [read] at found
    cases v <;> cases found
    rfl

theorem upvalue (c : Closure) (i : Nat) : Blind g (Exec.upvalue c i) m := by
  unfold Exec.upvalue
  split <;> rfl

theorem upvalue_state {c : Closure} {i cell : Nat} {m' : Machine}
    (found : Exec.upvalue c i m = .ok cell m') : m = m' := by
  unfold Exec.upvalue at found
  cases at' : c.upvalues[i]? with
  | none =>
    rw [at'] at found
    cases found
  | some cell =>
    rw [at'] at found
    cases found
    rfl

/-- A value is looked at for the rest. -/
theorem peeks (h : Grounded g m F rest op a b) {α : Type} {f : Value → Exec α} {n : Nat}
    (pos : 1 ≤ n) (own : g.base + n ≤ m.current.stack.size) (then_ : ∀ v, Blind g (f v) m) :
    Blind g (Exec.peek n >>= f) m := by
  obtain ⟨cell, found⟩ := Thread.cell?_isSome (t := m.current) pos (by omega)
  refine (Blind.peek h.stands pos own).bind fun v m' read => ?_
  rw [peek_apply found] at read
  cases read
  exact then_ _

theorem loadK (h : Grounded g m F rest .loadK a b) :
    Blind g (perform F.closure .loadK a b) m := by
  refine (constant _ _).bind fun v m' found => ?_
  obtain rfl := constant_state found
  exact Blind.push h.stands _

theorem getStack (h : Grounded g m F rest .getStack a b) :
    Blind g (perform F.closure .getStack a b) m := by
  obtain ⟨low, own⟩ := h.offset (Or.inl rfl)
  exact h.peeks low own fun v => Blind.push h.stands v

theorem putStack (h : Grounded g m F rest .putStack a b) :
    Blind g (perform F.closure .putStack a b) m := by
  obtain ⟨low, own⟩ := h.offset (Or.inr rfl)
  obtain ⟨cell, found⟩ := Thread.cell?_isSome (t := m.current) low (by omega)
  refine (Blind.slot h.stands low own).bind fun v m' read => ?_
  rw [slot_apply found] at read
  cases read
  refine (Blind.pop h.stands (h.own (Nat.le_refl 1))).bind fun v m' popped => ?_
  exact Blind.setCell _ _

theorem popStack (h : Grounded g m F rest .popStack a b) :
    Blind g (perform F.closure .popStack a b) m := by
  unfold Blind
  simp only [perform, modify_apply, Array.shrink_eq_take]
  exact congrArg (EStateM.Result.ok ()) (h.stands.drop (h.own (Nat.le_refl a)))

theorem getGlobal (h : Grounded g m F rest .getGlobal a b) :
    Blind g (perform F.closure .getGlobal a b) m := by
  refine (globalName _ _).bind fun name m' found => ?_
  obtain rfl := globalName_state found
  unfold Blind
  simp only [bind_apply, get_apply, Machine.global_onto]
  exact Blind.push h.stands _

theorem putGlobal (h : Grounded g m F rest .putGlobal a b) :
    Blind g (perform F.closure .putGlobal a b) m := by
  refine (globalName _ _).bind fun name m' found => ?_
  obtain rfl := globalName_state found
  exact h.stands.pops (h.own (Nat.le_refl 1)) rfl

theorem getUpval (h : Grounded g m F rest .getUpval a b) :
    Blind g (perform F.closure .getUpval a b) m := by
  refine (upvalue _ _).bind fun cell m' found => ?_
  obtain rfl := upvalue_state found
  unfold Blind
  simp only [bind_apply, get_apply, Machine.store_onto]
  exact Blind.push h.stands _

theorem putUpval (h : Grounded g m F rest .putUpval a b) :
    Blind g (perform F.closure .putUpval a b) m := by
  refine (Blind.pop h.stands (h.own (Nat.le_refl 1))).bind fun v m' popped => ?_
  exact (upvalue _ _).bind fun cell _ _ => Blind.setCell cell _

/-- What a handler decides when the operands are gone. -/
theorem metamethod (h : Grounded g m F rest op a b) {n : Nat} (touched : op.touched a b = n)
    {event : String} {lhs rhs : Value}
    (asks : ∀ handler, m.handler? event lhs rhs = some handler →
      m.request? op a b = some (handler, [lhs, rhs], 1)) (fault : Fault) :
    Blind g (callMetamethod event lhs rhs fault) (m.drop n) :=
  Blind.callMetamethod (fun handler found => touched ▸ (h.answers _ _ _ (asks handler found)).blind) fault

theorem arithmetic (h : Grounded g m F rest op a b) {operator : Arithmetic}
    (which : op.arithmetic? = some operator) : Blind g (Exec.arithmetic operator) m := by
  have two := Machine.touched_arithmetic (a := a) (b := b) which
  have own := h.own (Nat.le_of_eq two.symm)
  unfold Blind
  rw [arithmetic_apply h.stands.inside, arithmetic_apply (by simpa using h.stands.inside),
    h.stands.top (by decide) own, h.stands.top (by decide) (by omega), h.stands.drop own]
  split
  · rw [(h.stands.dropped own).push]
    rfl
  · rename_i others
    refine h.metamethod two (fun handler found => ?_) _
    rw [Machine.request?_arithmetic which, found, if_neg]
    · rfl
    · rintro ⟨lhs, rhs⟩
      obtain ⟨x, lhs⟩ := Option.isSome_iff_exists.1 lhs
      obtain ⟨y, rhs⟩ := Option.isSome_iff_exists.1 rhs
      exact others x y lhs rhs

theorem neg (h : Grounded g m F rest .neg a b) :
    Blind g (perform F.closure .neg a b) m := by
  have own := h.own (Nat.le_refl 1)
  unfold Blind
  rw [perform, negate_apply, negate_apply, h.stands.top (Nat.le_refl 1) own, h.stands.drop own]
  cases number : (m.top 1).number? with
  | some n =>
    dsimp only
    rw [(h.stands.dropped own).push]
    rfl
  | none => exact h.metamethod rfl (fun handler found => by simp [Machine.request?, number, found]) _

theorem concat (h : Grounded g m F rest .concat a b) :
    Blind g (perform F.closure .concat a b) m := by
  have own := h.own (Nat.le_refl 2)
  unfold Blind
  rw [perform, concat_apply h.stands.inside, concat_apply (by simpa using h.stands.inside),
    h.stands.top (by decide) own, h.stands.top (by decide) (by omega), h.stands.drop own]
  cases text : (m.top 2).concat? (m.top 1) with
  | some s =>
    dsimp only
    rw [(h.stands.dropped own).push]
    rfl
  | none => exact h.metamethod rfl (fun handler found => by simp [Machine.request?, text, found]) _

theorem len (h : Grounded g m F rest .len a b) :
    Blind g (perform F.closure .len a b) m := by
  have own := h.own (Nat.le_refl 1)
  have dropped := h.stands.dropped own
  unfold Blind
  rw [perform, length_apply, length_apply, h.stands.top (Nat.le_refl 1) own, h.stands.drop own]
  rw [show (m.onto g).metamethod (m.top 1) "__len" = m.metamethod (m.top 1) "__len" from rfl,
    show measure? (m.onto g) (m.top 1) = measure? m (m.top 1) by cases m.top 1 <;> rfl]
  cases looked : m.metamethod (m.top 1) "__len" with
  | error fault => rfl
  | ok handler =>
    dsimp only
    split
    · cases measure? m (m.top 1) with
      | some n =>
        dsimp only
        rw [dropped.push]
        rfl
      | none => rfl
    · rename_i present
      exact (h.answers handler _ 1 (by simp [Machine.request?, Machine.handler?, looked, present])).blind

theorem eq (h : Grounded g m F rest .eq a b) : Blind g (perform F.closure .eq a b) m := by
  refine h.pushes (n := 2) (v := fun k => .boolean (k.top 2 == k.top 1)) (Nat.le_refl 2)
    (fun k inside => pop_pop inside _) ?_
  rw [h.stands.top (by decide) (h.own (Nat.le_refl 2)),
    h.stands.top (by decide) (h.own (Nat.le_succ 1))]

theorem not (h : Grounded g m F rest .not a b) : Blind g (perform F.closure .not a b) m := by
  refine h.pushes (n := 1) (v := fun k => .boolean !(k.top 1).isTruthy) (Nat.le_refl 1) (fun k _ => ?_) ?_
  · simp only [perform, bind_apply, pop_apply]
    rfl
  · rw [h.stands.top (by decide) (h.own (Nat.le_refl 1))]

theorem and (h : Grounded g m F rest .and a b) : Blind g (perform F.closure .and a b) m := by
  refine h.pushes (n := 2) (v := fun k => if (k.top 2).isTruthy then k.top 1 else k.top 2) (Nat.le_refl 2)
    (fun k inside => pop_pop inside _) ?_
  rw [h.stands.top (by decide) (h.own (Nat.le_refl 2)),
    h.stands.top (by decide) (h.own (Nat.le_succ 1))]

theorem or (h : Grounded g m F rest .or a b) : Blind g (perform F.closure .or a b) m := by
  refine h.pushes (n := 2) (v := fun k => if (k.top 2).isTruthy then k.top 2 else k.top 1) (Nat.le_refl 2)
    (fun k inside => pop_pop inside _) ?_
  rw [h.stands.top (by decide) (h.own (Nat.le_refl 2)),
    h.stands.top (by decide) (h.own (Nat.le_succ 1))]

/-- A handler takes nothing from its thread; if it is over at once its result is there. -/
theorem metamethod_grows (h : Grounded g m F rest op a b) {n : Nat} (touched : op.touched a b = n)
    {event : String} {lhs rhs : Value}
    (asks : ∀ handler, m.handler? event lhs rhs = some handler →
      m.request? op a b = some (handler, [lhs, rhs], 1)) {fault : Fault} {u : Unit} {k : Machine}
    (called : callMetamethod event lhs rhs fault (m.drop n) = .ok u k) :
    m.running < k.threads.size ∧
      (m.drop n).current.stack.size ≤ (k.thread m.running).stack.size ∧
      (m.drop n).current.frames.length ≤ (k.thread m.running).frames.length ∧
      (m.drop n).current.handlers.length ≤ (k.thread m.running).handlers.length ∧
      (k.running = m.running →
        (k.thread m.running).frames.length ≤ (m.drop n).current.frames.length →
        (m.drop n).current.stack.size + slots 1 ≤ (k.thread m.running).stack.size) := by
  subst touched
  rcases Poised.callMetamethod_cases event lhs rhs fault (m.drop _) with ⟨_, failed, -⟩ | ⟨handler, found, calls⟩
  · rw [failed] at called
    cases called
  · rw [calls] at called
    exact (h.answers _ _ _ (asks handler found)).grows u k called

theorem comparison (h : Grounded g m F rest op a b) (two : op.touched a b = 2)
    {test : Value → Value → Option Bool} {event : String}
    (asks : m.request? op a b = if (test (m.top 2) (m.top 1)).isSome then none
      else (m.handler? event (m.top 2) (m.top 1)).map (·, [m.top 2, m.top 1], 1)) :
    Blind g (Exec.compare test event) m := by
  have own := h.own (Nat.le_of_eq two.symm)
  have dropped := h.stands.dropped own
  unfold Blind
  rw [Exec.compare, pop_pop h.stands.inside, pop_pop (by simpa using h.stands.inside),
    h.stands.top (by decide) own, h.stands.top (by decide) (by omega), h.stands.drop own]
  cases decided : test (m.top 2) (m.top 1) with
  | some result =>
    dsimp only
    exact Blind.push dropped _
  | none =>
    have asks (handler : Value) (found : m.handler? event (m.top 2) (m.top 1) = some handler) :
        m.request? op a b = some (handler, [m.top 2, m.top 1], 1) := by
      simp [asks, decided, found]
    -- the handler's call, and then the judgement of its result
    have judged : Blind g (do
        callMetamethod event (m.top 2) (m.top 1) (.compare (m.top 2).typeName (m.top 1).typeName)
        Exec.judge g.thread (m.drop 2).current.frames.length) (m.drop 2) := by
      refine (h.metamethod two asks _).bind fun u m' called => ?_
      obtain ⟨inside, stack, frames, handlers, finished⟩ := h.metamethod_grows two asks called
      rw [h.stands.running] at inside stack frames handlers finished
      have at' (here : m'.running = g.thread) : m'.current = m'.thread g.thread := by
        rw [← here]
        rfl
      refine Blind.judge (fun here => ⟨here, here ▸ inside, ?_⟩) fun here few => ?_
      · rw [at' here]
        exact ⟨Nat.le_trans dropped.current.stack stack, Nat.le_trans dropped.current.frames frames,
          Nat.le_trans dropped.current.handlers handlers⟩
      · rw [at' here] at few ⊢
        exact Nat.le_trans (Nat.add_le_add_right dropped.current.stack 1) (finished here few)
    unfold Blind at judged
    rw [← dropped.running] at judged
    simp only [bind_apply] at judged
    simp only [bind_apply, get_apply]
    rw [dropped.current_onto, Thread.length_frames_onto]
    exact judged

theorem less (h : Grounded g m F rest .less a b) :
    Blind g (perform F.closure .less a b) m :=
  h.comparison rfl rfl

theorem lessEq (h : Grounded g m F rest .lessEq a b) :
    Blind g (perform F.closure .lessEq a b) m :=
  h.comparison rfl rfl

theorem newTable (h : Grounded g m F rest .newTable a b) :
    Blind g (perform F.closure .newTable a b) m := by
  refine (Blind.onStore HostAction.newTable).bind fun id m' made => ?_
  obtain rfl : { m with store := m.store.newTable.2 } = m' := by
    cases made
    rfl
  exact Blind.push (h.stands.withStore _) _

theorem index (target key : Value) : Blind g (Exec.index target key) m := by
  unfold Blind
  simp only [Exec.index, bind_apply, get_apply, Machine.store_onto, Machine.global_onto]
  cases target with
  | table id => exact Blind.ofExcept _
  | string s =>
    cases m.global "string" with
    | table id => exact Blind.ofExcept _
    | _ => rfl
  | _ => rfl

theorem getTable (h : Grounded g m F rest .getTable a b) :
    Blind g (perform F.closure .getTable a b) m := by
  have own := h.own (Nat.le_refl 2)
  refine h.stands.pops (by omega) ((h.stands.dropped (by omega)).pops (h.stands.left 1 own) ?_)
  refine (index _ _).bind fun v m' read => ?_
  rcases Poised.index_cases _ _ _ with ⟨v', found⟩ | ⟨fault, failed, -⟩
  · rw [found] at read
    cases read
    exact Blind.push ((h.stands.dropped (by omega)).dropped (h.stands.left 1 own)) _
  · rw [failed] at read
    cases read

theorem writeFrom (id : Nat) (start : Float) (offset : Nat) (vs : List Value) (m : Machine) :
    Blind g (Exec.writeFrom id start offset vs) m := by
  induction vs generalizing offset m with
  | nil => rfl
  | cons v vs ih =>
    exact (Blind.onStore (HostAction.write id _ v)).bind fun _ m' _ => ih (offset + 1) m'

theorem putTable (h : Grounded g m F rest .putTable a b) :
    Blind g (perform F.closure .putTable a b) m := by
  have own := h.own (Nat.le_refl 3)
  refine h.stands.pops (by omega) ((h.stands.dropped (by omega)).pops
    (h.stands.left 1 (by omega)) ?_)
  rw [Machine.drop_drop]
  refine (h.stands.dropped (by omega)).pops (h.stands.left 2 own) ?_
  cases (m.drop 2).top 1 with
  | table id =>
    dsimp only
    cases (m.drop 1).top 1 with
    | number start =>
      cases m.top 1 with
      | multi vs => exact writeFrom id start 0 vs _
      | _ => exact Blind.onStore _
    | _ => exact Blind.onStore _
  | _ => rfl

theorem call (h : Grounded g m F rest .call a b) :
    Blind g (perform F.closure .call a b) m := by
  have own := h.own (n := a + 1) (Nat.le_refl _)
  refine h.stands.spreads (by omega) ((h.stands.dropped (by omega)).pops (h.stands.left a own) ?_)
  rw [Machine.drop_drop]
  refine (h.answers _ _ _ ?_).blind
  have callee : (m.drop a).top 1 = m.top (a + 1) := by
    rw [show 1 = 0 + 1 from rfl, Machine.top_drop h.stands.inside, Nat.add_comm 1 a]
  rw [callee]
  rfl

theorem jump (h : m.Stands g) (address : Nat) : Blind g (Exec.jump address) m := by
  unfold Blind
  simp only [Exec.jump, modify_apply]
  refine congrArg (EStateM.Result.ok ()) (h.modifyCurrent ?_)
  exact Thread.modifyFrame_onto fun _ _ => rfl

theorem jmpTrue (h : Grounded g m F rest .jmpTrue a b) :
    Blind g (perform F.closure .jmpTrue a b) m := by
  have own : g.base + 1 ≤ m.current.stack.size := h.own (Nat.le_refl 1)
  have leaps {k : Machine} (stands : k.Stands g) (v : Value) :
      Blind g (if v.isTruthy then Exec.jump a else Pure.pure ()) k := by
    split
    · exact jump stands a
    · exact Blind.pure ()
  simp only [perform]
  split
  · exact h.peeks (Nat.le_refl 1) own (leaps h.stands)
  · exact h.stands.pops own (leaps (h.stands.dropped own) _)

theorem pushAll (vs : List Value) (h : m.Stands g) : Blind g (vs.forM Exec.push) m := by
  induction vs generalizing m with
  | nil => exact Blind.pure ()
  | cons v vs ih =>
    refine (Blind.push h v).bind fun _ m' pushed => ?_
    cases pushed
    exact ih (h.pushed v)

theorem popVarArgs (h : Grounded g m F rest .popVarArgs a b) :
    Blind g (perform F.closure .popVarArgs a b) m := by
  have own : g.base + 1 ≤ m.current.stack.size := h.own (Nat.le_max_left 1 b)
  have dropped := h.stands.dropped own
  refine h.peeks (Nat.le_refl 1) own fun v => ?_
  unfold Blind
  simp only [bind_apply, modify_apply, pop_eq_take]
  rw [show (m.onto g).modifyCurrent _ = (m.drop 1).onto g from h.stands.drop own]
  by_cases consumes : b = 1
  · simp only [consumes, decide_true, Bool.not_true, Bool.false_eq_true, if_false]
    exact pushAll _ dropped
  · simp only [consumes, decide_false, Bool.not_false, if_true]
    exact (Blind.push dropped (.multi (v.spread.drop a))).bind fun _ m' pushed => by
      cases pushed
      exact pushAll (Value.adjust a v.spread) (dropped.pushed _)

theorem forControl (h : m.Stands g) {offset : Nat} (pos : 1 ≤ offset)
    (own : g.base + offset ≤ m.current.stack.size) (message : String) :
    Blind g (Exec.forControl offset message) m := by
  refine (Blind.slot h pos own).bind fun cell m' found => ?_
  unfold Blind
  simp only [bind_apply, get_apply, Machine.store_onto]
  cases (m'.store.cell cell).coerce? <;> rfl

/-- A check of a control slot changes no thread. -/
theorem forControl_stands (h : m.Stands g) {offset : Nat} {message : String} {u : Unit} {m' : Machine}
    (checked : Exec.forControl offset message m = .ok u m') : m'.Stands g ∧ m'.current = m.current := by
  simp only [Exec.forControl, bind_apply, Exec.slot, get_apply] at checked
  cases found : m.current.cell? offset with
  | none =>
    rw [found] at checked
    cases checked
  | some cell =>
    simp only [found, pure_apply] at checked
    cases number : (m.store.cell cell).coerce? with
    | none =>
      rw [number] at checked
      cases checked
    | some n =>
      rw [number] at checked
      cases checked
      exact ⟨h.withStore _, rfl⟩

/-- A control slot is checked for the rest. -/
theorem controls (h : m.Stands g) {offset : Nat} (pos : 1 ≤ offset)
    (own : g.base + offset ≤ m.current.stack.size) {message : String} {f : Unit → Exec Unit}
    (then_ : ∀ m', m'.Stands g → m'.current = m.current → Blind g (f ()) m') :
    Blind g (Exec.forControl offset message >>= f) m :=
  (forControl h pos own message).bind fun _ m' checked =>
    then_ m' (forControl_stands h checked).1 (forControl_stands h checked).2

theorem forPrep (h : Grounded g m F rest .forPrep a b) :
    Blind g (perform F.closure .forPrep a b) m := by
  have own : g.base + 3 ≤ m.current.stack.size := h.own (Nat.le_refl 3)
  refine controls h.stands (by decide) own fun m₁ stands same => ?_
  rw [← same] at own
  refine controls stands (by decide) (by omega) fun m₂ stands same => ?_
  rw [← same] at own
  refine controls stands (by decide) (by omega) fun m₃ stands same => ?_
  rw [← same] at own
  refine (Blind.peek stands (Nat.le_refl 1) (by omega)).bind fun v m' _ => ?_
  unfold Blind
  split <;> rfl

theorem closeVars (h : Grounded g m F rest .closeVars a b) :
    Blind g (perform F.closure .closeVars a b) m := by
  have own : g.base + a ≤ m.current.stack.size := h.own (Nat.le_refl a)
  have size := m.current.size_onto h.stands.current
  have enough : ¬m.current.stack.size < a := by omega
  have enough' : ¬(m.onto g).current.stack.size < a := by
    rw [h.stands.current_onto]
    omega
  unfold Blind
  simp only [perform, Exec.closeVars, bind_apply, get_apply, if_neg enough, if_neg enough', modify_apply]
  refine congrArg (EStateM.Result.ok ()) (h.stands.modifyCurrent ?_)
  rw [h.stands.current_onto, Thread.extract_onto own]
  rfl

theorem popClosed (h : Grounded g m F rest .popClosed a b) :
    Blind g (perform F.closure .popClosed a b) m := by
  unfold Blind
  simp only [perform, modify_apply]
  exact congrArg (EStateM.Result.ok ()) (h.stands.modifyCurrent rfl)

theorem closure (h : Grounded g m F rest .closure a b) :
    Blind g (perform F.closure .closure a b) m := by
  have frames : (m.onto g).current.frames = F.raise g.rise :: raiseAbove g.frames (Frame.raise g.rise) rest := by
    rw [h.stands.current_onto]
    show raiseAbove _ _ m.current.frames = _
    rw [h.frames, raiseAbove_cons (Nat.le_of_eq h.above)]
  unfold Blind
  simp only [perform, makeClosure]
  cases F.closure.unit.child? a with
  | none => rfl
  | some child =>
    simp only [bind_apply, get_apply, h.frames, frames]
    rw [h.stands.current_onto]
    exact Blind.push (h.stands.withStore (m.store.newClosure _).2) _

theorem performs (h : Grounded g m F rest op a b) (other : op ≠ .ret) :
    Blind g (perform F.closure op a b) m := by
  cases op with
  | loadK => exact h.loadK
  | getStack => exact h.getStack
  | putStack => exact h.putStack
  | popStack => exact h.popStack
  | getGlobal => exact h.getGlobal
  | putGlobal => exact h.putGlobal
  | add | sub | mul | div | mod | pow => exact h.arithmetic rfl
  | neg => exact h.neg
  | concat => exact h.concat
  | len => exact h.len
  | eq => exact h.eq
  | not => exact h.not
  | and => exact h.and
  | or => exact h.or
  | less => exact h.less
  | lessEq => exact h.lessEq
  | newTable => exact h.newTable
  | putTable => exact h.putTable
  | getTable => exact h.getTable
  | call => exact h.call
  | jmp => exact jump h.stands a
  | jmpTrue => exact h.jmpTrue
  | popVarArgs => exact h.popVarArgs
  | forPrep => exact h.forPrep
  | closeVars => exact h.closeVars
  | popClosed => exact h.popClosed
  | closure => exact h.closure
  | getUpval => exact h.getUpval
  | putUpval => exact h.putUpval
  | ret => exact absurd rfl other

/-- The frame is left, and with it all that stood on the ground. -/
theorem leave (base : g.base = F.base) (above : g.frames = rest.length) (t : Thread) :
    (F.raise g.rise).leave rest (t.onto g) = (F.leave rest t).onto g := by
  have enough := g.base_add_rise
  have stack : (g.cells ++ t.stack.extract g.base t.stack.size).shrink (F.base + g.rise) =
      g.cells ++ (t.stack.shrink F.base).extract g.base (t.stack.shrink F.base).size := by
    have none : (t.stack.shrink F.base).extract g.base (t.stack.shrink F.base).size = #[] :=
      Array.extract_empty_of_size_le_start (by simp [base])
    rw [none, Array.append_empty, ← base, enough, Array.shrink_eq_take, Array.take, Array.extract_append_left,
      Array.extract_size]
  simp only [Frame.leave, Thread.onto, Frame.raise, stack, raiseAbove_drop,
    raiseAbove_old (Nat.le_of_eq above.symm)]

theorem returnFrom (free : m.running ∉ m.waiting) (stands : m.Stands g) (frames : m.current.frames = F :: rest)
    (base : g.base = F.base) (above : g.frames = rest.length) (results : List Value) :
    Blind g (Exec.returnFrom results) m := by
  have frames' : (m.onto g).current.frames = F.raise g.rise :: rest := by
    rw [stands.current_onto]
    show raiseAbove _ _ m.current.frames = _
    rw [frames, raiseAbove_cons (Nat.le_of_eq above), raiseAbove_old (Nat.le_of_eq above.symm)]
  have left : (m.onto g).modifyCurrent ((F.raise g.rise).leave rest) =
      (m.modifyCurrent (F.leave rest)).onto g := stands.modifyCurrent (leave base above _)
  have low : g.base ≤ ((m.modifyCurrent (F.leave rest)).thread g.thread).stack.size := by
    rw [← stands.running]
    have := stands.current.stack
    show _ ≤ (m.modifyCurrent (F.leave rest)).current.stack.size
    rw [Machine.current_modifyCurrent stands.inside]
    simp only [Frame.leave, Array.size_shrink]
    omega
  unfold Blind
  rcases Exec.returnFrom_cases frames results with ⟨below, done⟩ | ⟨rfl, waiting, done⟩ |
    ⟨rfl, resumer, others, waiting, done⟩
  · obtain ⟨-, done'⟩ := (Exec.returnFrom_cases frames' results).resolve_right (by
      rintro (⟨last, -⟩ | ⟨last, -⟩) <;> exact below last)
    rw [done, done', left]
    exact congrArg (EStateM.Result.ok none) (Machine.pushResultsOn_onto low _ _ _)
  · obtain ⟨-, -, done'⟩ := ((Exec.returnFrom_cases frames' results).resolve_left
      fun below => below.1 rfl).resolve_right (by
        rintro ⟨-, resumer, others, waits, -⟩
        rw [Machine.waiting_onto, waiting] at waits
        cases waits)
    rw [done, done', left]
    rfl
  · obtain ⟨-, resumer', others', waits, done'⟩ := ((Exec.returnFrom_cases frames' results).resolve_left
      fun below => below.1 rfl).resolve_left (by
        rintro ⟨-, waits, -⟩
        rw [Machine.waiting_onto, waiting] at waits
        cases waits)
    rw [Machine.waiting_onto, waiting] at waits
    cases waits
    have other : resumer ≠ g.thread := by
      rintro rfl
      exact free (by rw [waiting, stands.running]; exact List.mem_cons_self)
    rw [done, done', left, Machine.deliver_onto low other]
    exact congrArg (EStateM.Result.ok none) (Machine.withRunning_onto ..)

end Grounded

namespace Machine

variable {g : Ground} {m m' : Machine} {f : Frame} {rest : List Frame} {op : Opcode} {a b : Nat}

/-- The frames are at the same instructions. -/
theorem Stands.next? (h : m.Stands g) : (m.onto g).next? = m.next? := by
  unfold Machine.next?
  rw [h.current_onto]
  show (raiseAbove g.frames (Frame.raise g.rise) m.current.frames).head?.bind _ = _
  cases m.current.frames with
  | nil => rfl
  | cons f rest =>
    rw [raiseAbove]
    split <;> rfl

theorem Stands.advance (h : m.Stands g) : (m.onto g).advance = m.advance.onto g :=
  h.modifyCurrent (Thread.modifyFrame_onto fun _ _ => rfl)

theorem Stands.advanced (h : m.Stands g) : m.advance.Stands g := by
  refine h.modified ⟨?_, ?_, ?_⟩
  all_goals
    unfold Thread.modifyFrame
    split
  · exact h.current.stack
  · exact h.current.stack
  · exact h.current.frames
  · have := h.current.frames
    simp_all
  · exact h.current.handlers
  · exact h.current.handlers

/-- On other ground the step is the same. -/
theorem step_onto (next : m.next? = some (op, a, b)) (free : m.running ∉ m.waiting)
    (stands : m.Stands g) (frames : m.current.frames = f :: rest)
    (grounded : Grounded g m.advance { f with ip := f.ip + 1 } rest op a b) : Blind g Exec.step m := by
  have frames' : (m.onto g).current.frames = f.raise g.rise :: rest := by
    rw [stands.current_onto]
    show raiseAbove _ _ m.current.frames = _
    rw [frames, raiseAbove_cons (Nat.le_of_eq grounded.above),
      raiseAbove_old (Nat.le_of_eq grounded.above.symm)]
  obtain ⟨returns, performs⟩ := step_eq frames next
  obtain ⟨returns', performs'⟩ := step_eq frames' (stands.next?.trans next)
  unfold Blind
  by_cases ret : op = .ret
  · subst ret
    rw [returns rfl, returns' rfl, stands.advance]
    have own : g.base + a ≤ m.advance.current.stack.size := grounded.own (Nat.le_refl a)
    refine stands.advanced.spreads own ?_
    refine Grounded.returnFrom (m := m.advance.drop a) (F := { f with ip := f.ip + 1 }) free
      (stands.advanced.dropped own) ?_ grounded.base grounded.above _
    rw [current_drop stands.advanced.inside]
    exact grounded.frames
  · rw [performs ret, performs' ret, stands.advance]
    exact (grounded.performs ret).bind fun _ _ _ => Blind.pure none

/-- In compiled programs the operands are there. -/
theorem Poises.step_onto (poises : m.Poises f rest op a b) (stands : m.Stands g)
    (base : g.base = f.base) (above : g.frames = rest.length) : Blind g Exec.step m := by
  obtain ⟨captured, d, poised⟩ := poises.poised
  have free : m.running ∉ m.waiting := (List.nodup_cons.1 poised.sane.distinct).1
  have touched := poised.touched_le
  have stack := poised.stack
  refine Machine.step_onto poises.instruction free stands poises.frames
    ⟨stands.advanced, poised.frames, base, above, ?_, ?_, fun callee args want _ => ?_⟩
  · rw [base]
    exact touched
  · rintro (rfl | rfl)
    · have := poised.legal.read rfl
      exact ⟨this.1, by simp only [base] at stack ⊢; omega⟩
    · have := poised.legal.write rfl
      exact ⟨by omega, by simp only [base] at stack ⊢; omega⟩
  · refine (poised.sane.alone (Turns.drop poised.sane _).alone).answers
      (stands.advanced.dropped ?_) callee args want
    rw [base]
    exact touched

end Machine

end ScriptEngine
