import ScriptEngine.Proofs.Machine.Privacy
import ScriptEngine.Proofs.Machine.Reach

/-!
# Instructions keep to the slots they work on

An instruction works on at most the slots of its own frame that it names (`Machine.deeds`): it writes into them
or closes over them. To every other cell that is known by its slot only it does nothing, and neither does a
return or the unwinding of a fault (`Ordered.moves_draws`). So the cells of all slots are apart in every state
that a machine with a discreet host comes to (`Reachable.separate`).
-/

set_option linter.dupNamespace false

namespace ScriptEngine

namespace Machine

/-- What an instruction does itself: it writes into the cells of slots, closes over those on top, or makes a
closure of a nested unit over what its frame has closed over. -/
def deeds (m : Machine) (op : Opcode) (a : Nat) : Deeds where
  writes x := op = .putStack ∧ m.current.cell? a = some x ∨
    op = .forPrep ∧ ∃ n, 1 ≤ n ∧ n ≤ 3 ∧ m.current.cell? n = some x
  binds x := op = .closeVars ∧ x ∈ m.current.stack.extract (m.current.stack.size - a) m.current.stack.size
  makes c := op = .closure ∧ ∃ f rest child, m.current.frames = f :: rest ∧
    f.closure.unit.child? a = some child ∧
    c = ⟨child, m.current.captures.extract f.captureBase m.current.captures.size⟩

end Machine

namespace Exec

open Machine

variable {m : Machine} {d : Deeds} {α β : Type}

/-- An action that leaves the machine as it is. -/
theorem read_draws {x : Exec α} {f : α → Exec β} (separate : m.Separate) (reads : final (x m) = m)
    (next : ∀ a, x m = .ok a m → Draws d m (final (f a m))) : Draws d m (final ((x >>= f) m)) := by
  rw [bind_apply]
  cases done : x m with
  | ok a m' =>
    obtain rfl : m' = m := by rwa [done] at reads
    exact next a done
  | error fault m' =>
    obtain rfl : m' = m := by rwa [done] at reads
    exact separate.refl d

theorem pop_draws {f : Value → Exec β} (separate : m.Separate)
    (next : (m.drop 1).Separate → Draws d (m.drop 1) (final (f (m.top 1) (m.drop 1)))) :
    Draws d m (final ((pop >>= f) m)) := by
  have dropped := separate.drop 1 (d := d)
  rw [bind_apply, pop_apply]
  exact dropped.trans (next dropped.separate)

@[simp] theorem final_constant (u : CodeUnit) (i : Nat) : final (constant u i m) = m := by
  unfold constant
  cases u.constants[i]? <;> rfl

@[simp] theorem final_globalName (u : CodeUnit) (i : Nat) : final (globalName u i m) = m := by
  have reads := final_constant (m := m) u i
  rw [globalName, bind_apply]
  cases done : constant u i m with
  | ok v m' =>
    obtain rfl : m' = m := by rwa [done] at reads
    cases v <;> rfl
  | error fault m' => rwa [done] at reads

@[simp] theorem final_upvalue (c : Closure) (i : Nat) : final (upvalue c i m) = m := by
  unfold upvalue
  cases c.upvalues[i]? <;> rfl

@[simp] theorem final_slot (n : Nat) : final (slot n m) = m := by
  simp only [slot, bind_apply, get_apply]
  cases m.current.cell? n <;> rfl

@[simp] theorem final_peek (n : Nat) : final (peek n m) = m := by
  have reads := final_slot (m := m) n
  rw [peek, bind_apply]
  cases done : slot n m with
  | ok cell m' => rwa [done] at reads
  | error fault m' => rwa [done] at reads

theorem final_ofExcept (e : Except Fault α) : final (ofExcept e m) = m := by
  cases e <;> rfl

@[simp] theorem final_index (target key : Value) : final (index target key m) = m := by
  simp only [index, bind_apply, get_apply]
  cases target with
  | table id => exact final_ofExcept _
  | string s => cases m.global "string" with
    | table id => exact final_ofExcept _
    | _ => rfl
  | _ => rfl

theorem pushAll_draws (separate : m.Separate) (vs : List Value) : Draws d m (final (vs.forM push m)) := by
  induction vs generalizing m with
  | nil => exact separate.refl d
  | cons v vs ih =>
    have first := separate.push v (d := d)
    exact first.trans (ih first.separate)

theorem write_draws (separate : m.Separate) (id : Nat) (key value : Value) :
    Draws d m (final (write id key value m)) := by
  refine onStore_draws separate ?_
  unfold HostAction.write
  cases Key.ofValue key with
  | error fault => exact .refl _
  | ok k => exact .of_same rfl rfl

theorem writeFrom_draws (separate : m.Separate) (id : Nat) (start : Float) (offset : Nat) (vs : List Value) :
    Draws d m (final (writeFrom id start offset vs m)) := by
  induction vs generalizing m offset with
  | nil => exact separate.refl d
  | cons v vs ih => exact .bind (write_draws separate _ _ _) fun _ m' _ separate => ih separate _

theorem forControl_draws (separate : m.Separate) {offset : Nat} {message : String}
    (itself : ∀ x, m.current.cell? offset = some x → d.writes x) :
    Draws d m (final (forControl offset message m)) := by
  refine read_draws separate (final_slot offset) fun cell done => ?_
  have found : m.current.cell? offset = some cell := by
    simp only [slot, bind_apply, get_apply] at done
    cases found : m.current.cell? offset with
    | none =>
      rw [found] at done
      cases done
    | some cell' =>
      rw [found] at done
      cases done
      rfl
  simp only [bind_apply, get_apply]
  cases (m.store.cell cell).coerce? with
  | none => exact separate.refl d
  | some n => exact separate.setCell (Or.inr (itself cell found)) _

theorem current_forControl {offset : Nat} {message : String} {m' : Machine}
    (done : forControl offset message m = .ok () m') : m'.current = m.current := by
  simp only [forControl, slot, bind_apply, get_apply] at done
  cases found : m.current.cell? offset with
  | none =>
    rw [found] at done
    cases done
  | some cell =>
    simp only [found, pure_apply] at done
    cases coerced : (m.store.cell cell).coerce? with
    | none =>
      rw [coerced] at done
      cases done
    | some n =>
      rw [coerced] at done
      cases done
      rfl

theorem mem_of_mem_extract {xs : Array Nat} {i j x : Nat} (mem : x ∈ xs.extract i j) : x ∈ xs := by
  obtain ⟨k, found⟩ := Array.mem_iff_getElem?.1 mem
  rw [Array.getElem?_extract] at found
  split at found
  · exact Array.mem_of_getElem? found
  · cases found

theorem makeClosure_draws (separate : m.Separate) {F : Frame} {rest : List Frame}
    (frames : m.current.frames = F :: rest) (u : CodeUnit) (id : Nat)
    (itself : ∀ child, u.child? id = some child →
      d.makes ⟨child, m.current.captures.extract F.captureBase m.current.captures.size⟩) :
    Draws d m (final (makeClosure u id m)) := by
  unfold makeClosure
  cases found : u.child? id with
  | none => exact separate.refl d
  | some child =>
    have made := separate.newClosure (d := d) (itself child found) fun x mem =>
      Or.inl ⟨m.running, mem_of_mem_extract mem⟩
    simp only [bind_apply, get_apply, frames]
    exact made.trans (made.separate.push _)

theorem modify_draws {f : Thread → Thread} (h : Draws d m (m.modifyCurrent f)) :
    Draws d m (final ((modify (·.modifyCurrent f) : Exec Unit) m)) := h

/-- A comparison works on no cell that is known by its slot only. -/
theorem compare_draws (separate : m.Separate) (test : Value → Value → Option Bool) (event : String) :
    Draws d m (final (compare test event m)) := by
  unfold compare
  refine pop_draws separate fun separate => pop_draws separate fun separate => ?_
  cases test ((m.drop 1).top 1) (m.top 1) with
  | some result => exact separate.push (.boolean result)
  | none =>
    refine read_draws separate rfl fun m₁ done => ?_
    cases done
    refine .bind (callMetamethod_draws separate _ _ _ _) fun _ m₂ _ separate => ?_
    simp only [bind_apply, get_apply]
    split
    · split
      · exact modifyFrame_draws separate _ fun _ => rfl
      · exact pop_draws separate fun separate => separate.push _
    · exact separate.refl d

theorem lt_of_frames {F : Frame} {rest : List Frame} (frames : m.current.frames = F :: rest) :
    m.running < m.threads.size := by
  apply Classical.byContradiction
  intro outside
  rw [current, thread, Array.getElem?_eq_none (Nat.le_of_not_lt outside)] at frames
  cases frames

theorem arithmetic_draws (separate : m.Separate) (inside : m.running < m.threads.size) (operator : Arithmetic) :
    Draws d m (final (arithmetic operator m)) := by
  have dropped := separate.drop 2 (d := d)
  have handled := callMetamethod_draws dropped.separate (d := d) operator.event (m.top 2) (m.top 1)
  rw [arithmetic_apply inside]
  cases (m.top 2).number? with
  | none => exact dropped.trans (handled _)
  | some x =>
    cases (m.top 1).number? with
    | none => exact dropped.trans (handled _)
    | some y => exact dropped.trans (dropped.separate.push _)

theorem length_draws (separate : m.Separate) : Draws d m (final (length m)) := by
  have dropped := separate.drop 1 (d := d)
  rw [length_apply]
  cases m.metamethod (m.top 1) "__len" with
  | error fault => exact dropped
  | ok handler =>
    simp only
    split
    · cases measure? m (m.top 1) with
      | none => exact dropped
      | some n => exact dropped.trans (dropped.separate.push _)
    · exact dropped.trans (call_draws dropped.separate _ _ _)

theorem putTable_draws (separate : m.Separate) : Draws d m (final (putTable m)) := by
  refine pop_draws separate fun separate => pop_draws separate fun separate => pop_draws separate fun separate => ?_
  cases ((m.drop 1).drop 1).top 1 with
  | table id =>
    generalize (m.drop 1).top 1 = key, m.top 1 = value at *
    split
    · exact writeFrom_draws separate id _ 0 _
    · exact write_draws separate id _ _
  | _ => exact separate.refl d

theorem popVarArgs_draws (separate : m.Separate) (count : Nat) (consume : Bool) :
    Draws d m (final (popVarArgs count consume m)) := by
  unfold popVarArgs
  refine read_draws separate (final_peek 1) fun v _ => ?_
  have dropped : Draws d m (m.modifyCurrent fun t => { t with stack := t.stack.pop }) :=
    separate.shorten _ (pop_eq_take _) (fun _ mem => mem) fun g mem => ⟨g, mem, rfl⟩
  simp only [bind_apply, modify_apply]
  cases consume with
  | true => exact dropped.trans (pushAll_draws dropped.separate _)
  | false =>
    have kept := dropped.separate.push (d := d) (.multi (v.spread.drop count))
    exact (dropped.trans kept).trans (pushAll_draws kept.separate _)

theorem forPrep_draws (separate : m.Separate)
    (itself : ∀ n x, 1 ≤ n → n ≤ 3 → m.current.cell? n = some x → d.writes x) : Draws d m (final (forPrep m)) := by
  unfold forPrep
  refine .bind (forControl_draws separate (itself 3 · (by omega) (by omega))) fun _ m₁ done separate => ?_
  rw [← current_forControl done] at itself
  refine .bind (forControl_draws separate (itself 2 · (by omega) (by omega))) fun _ m₂ done separate => ?_
  rw [← current_forControl done] at itself
  refine .bind (forControl_draws separate (itself 1 · (by omega) (by omega))) fun _ m₃ done separate => ?_
  refine read_draws separate (final_peek 1) fun v _ => ?_
  split <;> exact separate.refl d

theorem closeVars_draws (separate : m.Separate) (count : Nat)
    (itself : ∀ x ∈ m.current.stack.extract (m.current.stack.size - count) m.current.stack.size, d.binds x) :
    Draws d m (final (closeVars count m)) := by
  simp only [closeVars, bind_apply, get_apply]
  split
  · exact separate.refl d
  · refine modify_draws (separate.modifyThread _ (fun _ _ slot => slot) (fun x mem => ?_) fun g mem =>
      Or.inl (Or.inr ⟨m.running, g, mem, rfl⟩))
    rcases Array.mem_append.1 mem with old | new
    · exact Or.inl (Or.inl ⟨m.running, old⟩)
    · obtain ⟨i, found⟩ := Array.mem_iff_getElem?.1 (mem_of_mem_extract new)
      exact Or.inr ⟨itself x new, separate.slots m.running i x found⟩

/-- An instruction works only on the cells that it uses. -/
theorem perform_draws {F : Frame} {rest : List Frame} (separate : m.Separate) (frames : m.current.frames = F :: rest)
    (op : Opcode) (a b : Nat) : Draws (m.deeds op a) m (final (perform F.closure op a b m)) := by
  have inside := lt_of_frames frames
  cases op with
  | loadK => exact read_draws separate (final_constant _ _) fun v _ => separate.push v
  | getStack => exact read_draws separate (final_peek _) fun v _ => separate.push v
  | putStack =>
    refine read_draws separate (final_slot _) fun cell done => pop_draws separate fun separate => ?_
    refine separate.setCell (Or.inr (Or.inl ⟨rfl, ?_⟩)) _
    simp only [slot, bind_apply, get_apply] at done
    cases found : m.current.cell? a with
    | none =>
      rw [found] at done
      cases done
    | some cell' =>
      rw [found] at done
      cases done
      rfl
  | popStack =>
    exact modify_draws (separate.shorten _ (Array.shrink_eq_take ..) (fun _ mem => mem) fun g mem => ⟨g, mem, rfl⟩)
  | getGlobal =>
    exact read_draws separate (final_globalName _ _) fun name _ => separate.push (m.global name)
  | putGlobal =>
    refine read_draws separate (final_globalName _ _) fun name _ => pop_draws separate fun separate => ?_
    exact separate.withGlobals name _
  | add => exact arithmetic_draws separate inside .add
  | sub => exact arithmetic_draws separate inside .sub
  | mul => exact arithmetic_draws separate inside .mul
  | div => exact arithmetic_draws separate inside .div
  | mod => exact arithmetic_draws separate inside .mod
  | pow => exact arithmetic_draws separate inside .pow
  | neg =>
    have dropped := separate.drop 1 (d := m.deeds .neg a)
    rw [perform, negate_apply]
    cases (m.top 1).number? with
    | none => exact dropped.trans (callMetamethod_draws dropped.separate _ _ _ _)
    | some n => exact dropped.trans (dropped.separate.push _)
  | concat =>
    have dropped := separate.drop 2 (d := m.deeds .concat a)
    rw [perform, concat_apply inside]
    cases (m.top 2).concat? (m.top 1) with
    | none => exact dropped.trans (callMetamethod_draws dropped.separate _ _ _ _)
    | some s => exact dropped.trans (dropped.separate.push _)
  | len => exact length_draws separate
  | eq => exact pop_draws separate fun separate => pop_draws separate fun separate => separate.push _
  | not => exact pop_draws separate fun separate => separate.push _
  | and => exact pop_draws separate fun separate => pop_draws separate fun separate => separate.push _
  | or => exact pop_draws separate fun separate => pop_draws separate fun separate => separate.push _
  | less => exact compare_draws separate _ _
  | lessEq => exact compare_draws separate _ _
  | newTable =>
    have made := separate.minds (d := m.deeds .newTable a) (s := m.store.newTable.2) (.of_same rfl rfl)
    exact made.trans (made.separate.push (.table m.store.tables.size))
  | putTable => exact putTable_draws separate
  | getTable =>
    refine pop_draws separate fun separate => pop_draws separate fun separate => ?_
    exact read_draws separate (final_index _ _) fun v _ => separate.push v
  | call =>
    have dropped := separate.drop a (d := m.deeds .call a)
    rw [perform, bind_apply, popSpread_eq]
    exact dropped.trans (pop_draws dropped.separate fun separate => call_draws separate _ _ _)
  | jmp => exact modifyFrame_draws separate _ fun _ => rfl
  | jmpTrue =>
    have goes (v : Value) {m' : Machine} (separate : m'.Separate) :
        Draws (m.deeds .jmpTrue a) m' (final ((if v.isTruthy then jump a else pure () : Exec Unit) m')) := by
      split
      · exact modifyFrame_draws separate _ fun _ => rfl
      · exact separate.refl _
    rw [perform]
    by_cases peeks : b = 1
    · simp only [if_pos peeks]
      exact read_draws separate (final_peek 1) fun v _ => goes v separate
    · simp only [if_neg peeks]
      exact pop_draws separate fun separate => goes _ separate
  | popVarArgs => exact popVarArgs_draws separate _ _
  | forPrep => exact forPrep_draws separate fun n x low high found => Or.inr ⟨rfl, n, low, high, found⟩
  | closeVars => exact closeVars_draws separate a fun x mem => ⟨rfl, mem⟩
  | popClosed =>
    refine modify_draws (separate.modifyThread_same _ (fun _ _ slot => slot) (fun x mem => ?_) fun g mem =>
      ⟨g, mem, rfl⟩)
    obtain ⟨i, found⟩ := Array.mem_iff_getElem?.1 mem
    simp only [Array.shrink_eq_take, Array.getElem?_extract] at found
    split at found
    · exact Array.mem_of_getElem? found
    · cases found
  | closure =>
    exact makeClosure_draws separate frames _ _ fun child found => ⟨rfl, F, rest, child, frames, found, rfl⟩
  | getUpval => exact read_draws separate (final_upvalue _ _) fun cell _ => separate.push (m.store.cell cell)
  | putUpval =>
    refine pop_draws separate fun dropped => read_draws dropped (final_upvalue _ _) fun cell done => ?_
    refine dropped.setCell (Or.inl ?_) _
    have mem : cell ∈ F.closure.upvalues := by
      unfold upvalue at done
      cases found : F.closure.upvalues[a]? with
      | none =>
        rw [found] at done
        cases done
      | some cell' =>
        rw [found] at done
        cases done
        exact Array.mem_of_getElem? found
    refine Or.inr ⟨F.closure, Or.inr ⟨m.running, F, ?_, rfl⟩, mem⟩
    show F ∈ (m.drop 1).current.frames
    rw [current_drop inside, frames]
    exact List.mem_cons_self
  | ret => exact separate.refl _

end Exec

end ScriptEngine
