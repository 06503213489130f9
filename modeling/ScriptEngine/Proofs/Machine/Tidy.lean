import ScriptEngine.Proofs.Machine.Flow
import ScriptEngine.Proofs.Machine.Request

/-!
# Instructions leave no multi-value behind

Above the base of the innermost frame a machine is `Tidy` if none of the slots holds a multi-value, but for
the topmost one where that is `loose`. An instruction that handles what it finds (`Opcode.Handles`) and asks
for no call leaves the frame tidy again, loose only if it opens a multi-value itself or passes by one
(`perform_tidies`). One that asks for a call asks for that of a plain value with plain arguments
(`request_plain`).
-/

set_option linter.dupNamespace false

namespace ScriptEngine

theorem mem_of_mem_shrink {xs : Array Nat} {n cell : Nat} (mem : cell ∈ xs.shrink n) : cell ∈ xs := by
  obtain ⟨i, found⟩ := Array.mem_iff_getElem?.1 mem
  rw [Array.shrink_eq_take, Array.getElem?_extract] at found
  split at found
  · exact Array.mem_of_getElem? found
  · cases found

namespace Machine

/-- No slot of the running thread above `base` holds a multi-value, unless it is `loose` on top. -/
structure Tidy (m : Machine) (base : Nat) (loose : Prop) : Prop where
  plain : m.Plain
  inside : m.running < m.threads.size
  slots : ∀ i cell, base < i → m.current.stack[i]? = some cell →
    m.store.HasPlain cell ∨ loose ∧ i + 1 = m.current.stack.size

/-- The result of an instruction: a tidy frame or a plain fault, and nothing has spread. -/
def Tidies (m : Machine) (base : Nat) (loose : Prop) : EStateM.Result Fault Machine Unit → Prop
  | .ok _ m' => m.Flows m' ∧ m'.Tidy base loose
  | .error fault m' => fault.IsPlain ∧ m.Flows m'

namespace Tidy

variable {m : Machine} {base : Nat} {loose loose' : Prop}

theorem mono (h : m.Tidy base loose) (less : loose → loose') : m.Tidy base loose' :=
  ⟨h.plain, h.inside, fun i cell above found => (h.slots i cell above found).imp_right (And.imp_left less)⟩

/-- A slot above the base, other than the topmost one if that is loose. -/
theorem top (h : m.Tidy base loose) {i : Nat} (low : 1 ≤ i) (above : base + i < m.current.stack.size)
    (fixed : loose → 2 ≤ i) : (m.top i).isPlain = true := by
  obtain ⟨cell, found⟩ := Thread.cell?_isSome (t := m.current) low (by omega)
  have value : m.top i = m.store.cell cell := by rw [Machine.top, found]; rfl
  rw [Thread.cell?, if_pos (by omega)] at found
  rw [value]
  rcases h.slots _ cell (by omega) found with plain | ⟨isLoose, last⟩
  · exact plain.cell
  · have := fixed isLoose
    omega

theorem drop (h : m.Tidy base loose) {n : Nat} (gone : loose → 1 ≤ n) (loose' : Prop) :
    (m.drop n).Tidy base loose' := by
  refine ⟨(h.plain.drop n).plain, by simpa [Machine.drop] using h.inside, fun i cell above found => ?_⟩
  rw [current_drop h.inside] at found
  simp only [Array.getElem?_extract] at found
  split at found
  · rename_i short
    rw [Nat.zero_add] at found
    rcases h.slots i cell above found with plain | ⟨isLoose, last⟩
    · exact Or.inl plain
    · have := gone isLoose
      omega
  · cases found

/-- A multi-value may come to lie on top, or at the base. -/
theorem push (h : m.Tidy base False) {v : Value} (flat : v.IsFlat)
    (which : v.isPlain = true ∨ loose ∨ m.current.stack.size ≤ base) : (m.push v).Tidy base loose := by
  have flows := h.plain.push flat
  have stack : (m.push v).current.stack = m.current.stack.push m.store.cells.size := by
    rw [push_eq_pushResults, current_pushResults h.inside]
    simp [Thread.withCells, ScriptEngine.slots]
  refine ⟨flows.plain, by simpa [Machine.push_eq_pushResults, pushResults] using h.inside,
    fun i cell above found => ?_⟩
  rw [stack, Array.getElem?_push] at found
  rw [stack, Array.size_push]
  split at found
  · rename_i last
    cases found
    rcases which with plain | isLoose | low
    · refine Or.inl ⟨v, ?_, plain⟩
      simp [push_eq_pushResults, pushResults, delivered, Store.withCells, Value.adjust]
    · exact Or.inr ⟨isLoose, by omega⟩
    · omega
  · rcases h.slots i cell above found with plain | ⟨isLoose, -⟩
    · exact Or.inl (flows.keeps cell plain)
    · exact isLoose.elim

theorem withStore (h : m.Tidy base loose) {s : Store} (hs : s.Plain ∧ m.store.Keeps s) :
    Tidy { m with store := s } base loose :=
  ⟨(h.plain.withStore hs).plain, h.inside, fun i cell above found =>
    (h.slots i cell above found).imp_left (hs.2 cell)⟩

theorem setGlobal (h : m.Tidy base loose) (name : String) {v : Value} (hv : v.isPlain = true) :
    (m.setGlobal name v).Tidy base loose :=
  ⟨(h.plain.setGlobal name hv).plain, h.inside, h.slots⟩

/-- Nothing but frames and closed variables changes. -/
theorem modifyCurrent (h : m.Tidy base loose) {f : Thread → Thread}
    (kept : ∀ t : Thread, t.Captured m.store → (f t).Captured m.store)
    (same : (f m.current).stack = m.current.stack) : (m.modifyCurrent f).Tidy base loose := by
  refine ⟨(h.plain.modifyThread _ kept).plain, by simpa using h.inside, ?_⟩
  rw [current_modifyCurrent h.inside, same]
  exact h.slots

/-! ## Results -/

theorem leaves (h : m.Tidy base loose) : m.Tidies base loose (.ok () m) := ⟨h.plain.refl, h⟩

theorem fails (h : m.Tidy base loose) {fault : Fault} (plain : fault.IsPlain) (n : Nat) :
    m.Tidies base loose' (.error fault (m.drop n)) := ⟨plain, h.plain.drop n⟩

/-- The operands are gone and a plain value is there. -/
theorem drop_push (h : m.Tidy base False) {n : Nat} {v : Value} (hv : v.isPlain = true) (loose : Prop) :
    m.Tidies base loose (.ok () ((m.drop n).push v)) := by
  have dropped := h.drop (n := n) False.elim False
  exact ⟨(h.plain.drop n).trans (dropped.plain.push (Value.isFlat_of_isPlain hv)),
    dropped.push (Value.isFlat_of_isPlain hv) (Or.inl hv)⟩

theorem pushes (h : m.Tidy base False) {v : Value} (hv : v.isPlain = true) (loose : Prop) :
    m.Tidies base loose (.ok () (m.push v)) :=
  ⟨h.plain.push (Value.isFlat_of_isPlain hv), h.push (Value.isFlat_of_isPlain hv) (Or.inl hv)⟩

/-- The operands are gone and the store has changed. -/
theorem drop_withStore (h : m.Tidy base loose) {n : Nat} (gone : loose → 1 ≤ n) {s : Store}
    (hs : s.Plain ∧ m.store.Keeps s) (loose' : Prop) :
    m.Tidies base loose' (.ok () { m.drop n with store := s }) :=
  ⟨(h.plain.drop n).trans ((h.plain.drop n).plain.withStore hs), (h.drop gone loose').withStore hs⟩

end Tidy

namespace Tidies

variable {m m' : Machine} {base : Nat} {loose : Prop}

theorem after {r : EStateM.Result Fault Machine Unit} (flows : m.Flows m') (h : m'.Tidies base loose r) :
    m.Tidies base loose r := by
  cases r with
  | ok u m'' => exact ⟨flows.trans h.1, h.2⟩
  | error fault m'' => exact ⟨h.1, flows.trans h.2⟩

theorem of_error {P : Unit → Prop} {r : EStateM.Result Fault Machine Unit} {fault : Fault}
    (comes : m.Comes P r) (failed : r = .error fault m') : m.Tidies base loose r := by
  subst failed
  exact comes

end Tidies

end Machine

namespace Poised

open Exec Machine

variable {m : Machine} {F : Frame} {rest : List Frame} {captured : Nat → Nat} {d : Depths} {op : Opcode}
  {a b : Nat} {loose : Prop}

/-- The operands that a multi-value cannot be. -/
theorem operand (h : Poised m F rest captured d op a b) (tidy : m.Tidy F.base loose) {i : Nat} (low : 1 ≤ i)
    (inside : i ≤ op.operands a b) (fixed : loose → 2 ≤ i) : (m.top i).isPlain = true := by
  have operands := h.legal.operands
  have stack := h.stack
  exact tidy.top low (by omega) fixed

theorem upvalue_plain (h : Poised m F rest captured d op a b) (plain : m.Plain) {cell : Nat}
    (mem : cell ∈ F.closure.upvalues) : m.store.HasPlain cell :=
  (plain.threads m.running).upvalues F (by
    show F ∈ m.current.frames
    rw [h.frames]
    exact List.mem_cons_self) cell mem

/-! ## Instructions that find nothing loose -/

section Tight

theorem getStack_tidies (h : Poised m F rest captured d .getStack a b) (tight : m.Tidy F.base False) :
    m.Tidies F.base (Opcode.getStack.opens a b d.depth = true) (perform F.closure .getStack a b m) := by
  have bounds := h.legal.read rfl
  have stack := h.stack
  obtain ⟨cell, found⟩ := Thread.cell?_isSome (t := m.current) bounds.1 (by omega)
  have value : m.top a = m.store.cell cell := by rw [Machine.top, found]; rfl
  simp only [perform, bind_apply, peek_apply found, push_apply]
  by_cases first : (a : Int) = d.depth
  · have flat := tight.plain.store.cell cell
    refine ⟨tight.plain.push flat, tight.push flat (Or.inr (Or.inl ?_))⟩
    simpa [Opcode.opens] using first
  · exact tight.pushes (value ▸ tight.top bounds.1 (by omega) False.elim) _

theorem putStack_tidies (h : Poised m F rest captured d .putStack a b) (tight : m.Tidy F.base False) :
    m.Tidies F.base loose (perform F.closure .putStack a b m) := by
  have bounds := h.legal.write rfl
  have stack := h.stack
  obtain ⟨cell, found⟩ := Thread.cell?_isSome (t := m.current) (n := a) (by omega) (by omega)
  have plain := h.operand tight (i := 1) (Nat.le_refl _) (Nat.le_refl _) False.elim
  simp only [perform, bind_apply, slot_apply found, pop_apply, setCell, modify_apply]
  exact tight.drop_withStore False.elim (tight.plain.store.setCell cell plain) loose

theorem getGlobal_tidies (h : Poised m F rest captured d .getGlobal a b) (tight : m.Tidy F.base False) :
    m.Tidies F.base loose (perform F.closure .getGlobal a b m) := by
  obtain ⟨name, found⟩ := h.legal.global (Or.inl rfl)
  simp only [perform, bind_apply, globalName_apply found, get_apply, push_apply]
  exact tight.pushes (tight.plain.globals name) loose

theorem putGlobal_tidies (h : Poised m F rest captured d .putGlobal a b) (tight : m.Tidy F.base False) :
    m.Tidies F.base loose (perform F.closure .putGlobal a b m) := by
  obtain ⟨name, found⟩ := h.legal.global (Or.inr rfl)
  have plain := h.operand tight (i := 1) (Nat.le_refl _) (Nat.le_refl _) False.elim
  have dropped := tight.drop (n := 1) False.elim loose
  simp only [perform, bind_apply, globalName_apply found, pop_apply, modify_apply]
  exact ⟨(tight.plain.drop 1).trans (dropped.plain.setGlobal name plain), dropped.setGlobal name plain⟩

theorem getUpval_tidies (h : Poised m F rest captured d .getUpval a b) (tight : m.Tidy F.base False) :
    m.Tidies F.base loose (perform F.closure .getUpval a b m) := by
  simp only [perform, bind_apply, upvalue_apply (h.legal.upvalue (Or.inl rfl)), get_apply, push_apply]
  exact tight.pushes (h.upvalue_plain tight.plain (Array.getElem_mem _)).cell loose

theorem putUpval_tidies (h : Poised m F rest captured d .putUpval a b) (tight : m.Tidy F.base False) :
    m.Tidies F.base loose (perform F.closure .putUpval a b m) := by
  have plain := h.operand tight (i := 1) (Nat.le_refl _) (Nat.le_refl _) False.elim
  simp only [perform, bind_apply, pop_apply, upvalue_apply (h.legal.upvalue (Or.inr rfl)), setCell,
    modify_apply]
  exact tight.drop_withStore False.elim (tight.plain.store.setCell _ plain) loose

/-- A handler that no operand has. -/
theorem callMetamethod_tidies (tight : m.Tidy F.base False) {event : String} {lhs rhs : Value}
    (hl : lhs.isPlain = true) (hr : rhs.isPlain = true) {fault : Fault} (hf : fault.IsPlain) (n : Nat)
    (quiet : m.handler? event lhs rhs = none) :
    m.Tidies F.base loose (callMetamethod event lhs rhs fault (m.drop n)) := by
  have flows := tight.plain.drop n
  refine .after flows ?_
  rcases callMetamethod_cases event lhs rhs fault (m.drop n) with ⟨fault', failed, -⟩ | ⟨v, found, -⟩
  · exact .of_error (callMetamethod_comes flows.plain event hl hr hf) failed
  · cases quiet.symm.trans found

theorem arithmetic_tidies (h : Poised m F rest captured d op a b) (tight : m.Tidy F.base False)
    {operator : Arithmetic} (which : op.arithmetic? = some operator) (quiet : m.request? op a b = none) :
    m.Tidies F.base loose (Exec.arithmetic operator m) := by
  have two : op.operands a b = 2 := by cases op <;> first | rfl | cases which
  have lhs := h.operand tight (i := 2) (by omega) (by omega) False.elim
  have rhs := h.operand tight (i := 1) (by omega) (by omega) False.elim
  rw [request?_arithmetic which] at quiet
  rw [arithmetic_apply tight.inside]
  split
  · exact tight.drop_push rfl loose
  · rename_i others
    refine callMetamethod_tidies tight lhs rhs (by split <;> trivial) 2 ?_
    split at quiet
    · rename_i both
      obtain ⟨x, hx⟩ := Option.isSome_iff_exists.1 both.1
      obtain ⟨y, hy⟩ := Option.isSome_iff_exists.1 both.2
      exact absurd hy (others x y hx)
    · simpa using quiet

theorem neg_tidies (h : Poised m F rest captured d .neg a b) (tight : m.Tidy F.base False)
    (quiet : m.request? .neg a b = none) : m.Tidies F.base loose (perform F.closure .neg a b m) := by
  have plain := h.operand tight (i := 1) (Nat.le_refl _) (Nat.le_refl _) False.elim
  rw [perform, negate_apply]
  cases number : (m.top 1).number? with
  | some n => exact tight.drop_push rfl loose
  | none =>
    exact callMetamethod_tidies tight plain plain (show Fault.IsPlain (.arithmetic _) from trivial) 1
      (by simpa [Machine.request?, number] using quiet)

theorem concat_tidies (h : Poised m F rest captured d .concat a b) (tight : m.Tidy F.base False)
    (quiet : m.request? .concat a b = none) : m.Tidies F.base loose (perform F.closure .concat a b m) := by
  have lhs := h.operand tight (i := 2) (by omega) (Nat.le_refl _) False.elim
  have rhs := h.operand tight (i := 1) (by omega) (Nat.le_succ _) False.elim
  rw [perform, concat_apply tight.inside]
  cases text : (m.top 2).concat? (m.top 1) with
  | some s => exact tight.drop_push rfl loose
  | none =>
    exact callMetamethod_tidies tight lhs rhs (show Fault.IsPlain (.concat _) from trivial) 2
      (by simpa [Machine.request?, text] using quiet)

theorem len_tidies (tight : m.Tidy F.base False) (quiet : m.request? .len a b = none) :
    m.Tidies F.base loose (perform F.closure .len a b m) := by
  have metamethod := tight.plain.metamethod (m.top 1) "__len"
  simp only [Machine.request?, Option.map_eq_none_iff, Machine.handler?] at quiet
  rw [perform, length_apply]
  cases looked : m.metamethod (m.top 1) "__len" with
  | error fault =>
    rw [looked] at metamethod
    exact tight.fails metamethod 1
  | ok handler =>
    simp only [looked] at quiet
    by_cases missing : handler.isNil = true
    · simp only [if_pos missing]
      cases measure? m (m.top 1) with
      | some n => exact tight.drop_push rfl loose
      | none => exact tight.fails (show Fault.IsPlain (.length _) from trivial) 1
    · simp [missing] at quiet

theorem compare_tidies (h : Poised m F rest captured d op a b) (tight : m.Tidy F.base False)
    (two : op.operands a b = 2) {test : Value → Value → Option Bool} {event : String}
    (quiet : (if (test (m.top 2) (m.top 1)).isSome then none
      else (m.handler? event (m.top 2) (m.top 1)).map (·, [m.top 2, m.top 1], 1)) = none) :
    m.Tidies F.base loose (Exec.compare test event m) := by
  have lhs := h.operand tight (i := 2) (by omega) (by omega) False.elim
  have rhs := h.operand tight (i := 1) (by omega) (by omega) False.elim
  cases decided : test (m.top 2) (m.top 1) with
  | some result =>
    rw [compare_of_test tight.inside decided event]
    exact tight.drop_push rfl loose
  | none =>
    simp only [decided, Option.isSome_none, Bool.false_eq_true, if_false, Option.map_eq_none_iff] at quiet
    have missing : m.Tidies F.base loose (callMetamethod event (m.top 2) (m.top 1)
        (.compare (m.top 2).typeName (m.top 1).typeName) (m.drop 2)) :=
      callMetamethod_tidies tight lhs rhs (show Fault.IsPlain (.compare _ _) from trivial) 2 quiet
    rw [Exec.compare, pop_pop tight.inside, decided]
    simp only [bind_apply, get_apply]
    rcases callMetamethod_cases event (m.top 2) (m.top 1)
        (.compare (m.top 2).typeName (m.top 1).typeName) (m.drop 2) with ⟨fault', failed, -⟩ | ⟨v, found, -⟩
    · rw [failed] at missing ⊢
      exact missing
    · cases quiet.symm.trans found

theorem eq_tidies (tight : m.Tidy F.base False) : m.Tidies F.base loose (perform F.closure .eq a b m) := by
  rw [perform, pop_pop tight.inside]
  exact tight.drop_push rfl loose

theorem not_tidies (tight : m.Tidy F.base False) : m.Tidies F.base loose (perform F.closure .not a b m) := by
  simp only [perform, bind_apply, pop_apply]
  exact tight.drop_push rfl loose

theorem and_tidies (h : Poised m F rest captured d .and a b) (tight : m.Tidy F.base False) :
    m.Tidies F.base loose (perform F.closure .and a b m) := by
  have lhs := h.operand tight (i := 2) (by omega) (Nat.le_refl _) False.elim
  have rhs := h.operand tight (i := 1) (by omega) (Nat.le_succ _) False.elim
  rw [perform, pop_pop tight.inside]
  exact tight.drop_push (by split <;> assumption) loose

theorem or_tidies (h : Poised m F rest captured d .or a b) (tight : m.Tidy F.base False) :
    m.Tidies F.base loose (perform F.closure .or a b m) := by
  have lhs := h.operand tight (i := 2) (by omega) (Nat.le_refl _) False.elim
  have rhs := h.operand tight (i := 1) (by omega) (Nat.le_succ _) False.elim
  rw [perform, pop_pop tight.inside]
  exact tight.drop_push (by split <;> assumption) loose

theorem newTable_tidies (tight : m.Tidy F.base False) :
    m.Tidies F.base loose (perform F.closure .newTable a b m) := by
  have made := tight.plain.store.pushTable Table.isPlain_empty
  simp only [perform, bind_apply, onStore_apply]
  exact .after (tight.plain.withStore made) ((tight.withStore made).pushes rfl loose)

theorem index_comes (plain : m.Plain) (target key : Value) :
    m.Comes (·.isPlain = true) (index target key m) := by
  have looked (id : Nat) : m.Comes (·.isPlain = true)
      (Exec.ofExcept (m.store.lookup id key m.config.maxChainDepth) m) :=
    .ofExcept plain (plain.store.lookup _ _ _)
  simp only [index, bind_apply, get_apply]
  cases target with
  | table id => exact looked id
  | string s =>
    cases m.global "string" with
    | table id => exact looked id
    | _ => exact ⟨trivial, plain.refl⟩
  | _ => exact ⟨trivial, plain.refl⟩

theorem getTable_tidies (tight : m.Tidy F.base False) :
    m.Tidies F.base loose (perform F.closure .getTable a b m) := by
  have dropped := tight.drop (n := 2) False.elim False
  have comes := index_comes dropped.plain (m.top 2) (m.top 1)
  simp only [perform, bind_apply, pop_apply, Machine.top_drop tight.inside, Machine.drop_drop, Nat.reduceAdd]
  rcases index_cases (m.top 2) (m.top 1) (m.drop 2) with ⟨v, found⟩ | ⟨fault, failed, -⟩
  · rw [found] at comes
    simp only [found]
    exact tight.drop_push comes.1 loose
  · rw [failed] at comes
    simp only [failed]
    exact tight.fails comes.1 2

theorem jump_tidies (tight : m.Tidy F.base False) (address : Nat) :
    m.Tidies F.base loose (jump address m) := by
  have kept (t : Thread) (ht : t.Captured m.store) :
      (t.modifyFrame ({ · with ip := address })).Captured m.store := ht.modifyFrame fun _ => rfl
  refine ⟨tight.plain.modifyThread _ kept, (tight.mono False.elim).modifyCurrent kept ?_⟩
  unfold Thread.modifyFrame
  split <;> rfl

theorem jmpTrue_tidies (h : Poised m F rest captured d .jmpTrue a b) (tight : m.Tidy F.base False) :
    m.Tidies F.base loose (perform F.closure .jmpTrue a b m) := by
  have stack := h.touched_le
  simp only [Opcode.touched, Opcode.operands] at stack
  have goes {k : Machine} (tidy : k.Tidy F.base False) (v : Value) :
      k.Tidies F.base loose ((if v.isTruthy then jump a else pure () : Exec Unit) k) := by
    split
    · exact jump_tidies tidy a
    · exact (tidy.mono False.elim).leaves
  simp only [perform]
  by_cases peeks : b = 1
  · obtain ⟨cell, found⟩ := Thread.cell?_isSome (t := m.current) (n := 1) (by omega) (by omega)
    simp only [if_pos peeks, bind_apply, peek_apply found]
    exact goes tight _
  · simp only [if_neg peeks, bind_apply, pop_apply]
    exact .after (tight.plain.drop 1) (goes (tight.drop False.elim False) _)

theorem forControl_tidies {k : Machine} (tidy : k.Tidy F.base False)
    (same : k.current.stack = m.current.stack) (offset : Nat) (message : String) (low : 1 ≤ offset)
    (high : offset ≤ m.current.stack.size) :
    (∃ k', forControl offset message k = .ok () k' ∧ k.Flows k' ∧ k'.Tidy F.base False ∧
      k'.current.stack = m.current.stack) ∨
      ∃ fault, forControl offset message k = .error fault k ∧ fault.IsPlain := by
  obtain ⟨cell, found⟩ := Thread.cell?_isSome (t := k.current) low (by rw [same]; exact high)
  simp only [forControl, bind_apply, slot_apply found, get_apply]
  cases (k.store.cell cell).coerce? with
  | some n =>
    have numbered := tidy.plain.store.setCell cell (v := .number n) rfl
    exact Or.inl ⟨_, rfl, tidy.plain.withStore numbered, tidy.withStore numbered, same⟩
  | none => exact Or.inr ⟨_, rfl, trivial⟩

theorem forPrep_tidies (h : Poised m F rest captured d .forPrep a b) (tight : m.Tidy F.base False) :
    m.Tidies F.base loose (perform F.closure .forPrep a b m) := by
  have stack := h.touched_le
  simp only [Opcode.touched, Opcode.operands] at stack
  simp only [perform, Exec.forPrep, bind_apply]
  rcases forControl_tidies tight rfl 3 "initial value must be a number" (by omega) (by omega) with
    ⟨m₁, done, first, tidy, same⟩ | ⟨fault, failed, plain⟩
  · simp only [done]
    refine .after first ?_
    rcases forControl_tidies tidy same 2 "limit must be a number" (by omega) (by omega) with
      ⟨m₂, done, second, tidy, same⟩ | ⟨fault, failed, plain⟩
    · simp only [done]
      refine .after second ?_
      rcases forControl_tidies tidy same 1 "step must be a number" (by omega) (by omega) with
        ⟨m₃, done, third, tidy, same⟩ | ⟨fault, failed, plain⟩
      · obtain ⟨cell, found⟩ := Thread.cell?_isSome (t := m₃.current) (n := 1) (by omega)
          (by rw [same]; omega)
        simp only [done, peek_apply found]
        refine .after third ?_
        by_cases zero : (m₃.store.cell cell == .number 0.0) = true
        · simp only [if_pos zero]
          exact ⟨trivial, tidy.plain.refl⟩
        · simp only [if_neg zero]
          exact (tidy.mono False.elim).leaves
      · simp only [failed]
        exact ⟨plain, tidy.plain.refl⟩
    · simp only [failed]
      exact ⟨plain, tidy.plain.refl⟩
  · simp only [failed]
    exact ⟨plain, tight.plain.refl⟩

theorem closeVars_tidies (h : Poised m F rest captured d .closeVars a b) (tight : m.Tidy F.base False) :
    m.Tidies F.base loose (perform F.closure .closeVars a b m) := by
  have operands := h.legal.operands
  have stack := h.stack
  simp only [Opcode.operands] at operands
  have enough : ¬m.current.stack.size < a := by omega
  simp only [perform, Exec.closeVars, bind_apply, get_apply, if_neg enough, modify_apply]
  -- the slots that are closed over are above the frame's first one
  obtain ⟨taken, same⟩ : ∃ cells, m.current.stack.extract (m.current.stack.size - a) m.current.stack.size = cells :=
    ⟨_, rfl⟩
  have closed (cell : Nat) (mem : cell ∈ taken) : m.store.HasPlain cell := by
    rw [← same] at mem
    obtain ⟨i, found⟩ := Array.mem_iff_getElem?.1 mem
    rw [Array.getElem?_extract] at found
    split at found
    · exact (tight.slots _ cell (by omega) found).resolve_right fun onTop => onTop.1
    · cases found
  have kept (t : Thread) (ht : t.Captured m.store) : Thread.Captured m.store { t with captures := t.captures ++ taken } :=
    ⟨fun cell mem => (Array.mem_append.1 mem).elim (ht.captures cell) (closed cell), ht.upvalues⟩
  have machine : (m.modifyCurrent fun t => { t with
      captures := t.captures ++ t.stack.extract (m.current.stack.size - a) m.current.stack.size }) =
      m.modifyCurrent fun t => { t with captures := t.captures ++ taken } :=
    modifyThread_congr (congrArg (fun cells => { m.current with captures := m.current.captures ++ cells }) same)
  rw [machine]
  exact ⟨tight.plain.modifyThread _ kept, (tight.mono False.elim).modifyCurrent kept rfl⟩

theorem closure_tidies (h : Poised m F rest captured d .closure a b) (tight : m.Tidy F.base False) :
    m.Tidies F.base loose (perform F.closure .closure a b m) := by
  obtain ⟨child, found, -⟩ := h.legal.nested rfl
  have made := tight.plain.store.newClosure
    (c := ⟨child, m.current.captures.extract F.captureBase m.current.captures.size⟩) fun cell mem => by
      obtain ⟨i, found⟩ := Array.mem_iff_getElem?.1 mem
      rw [Array.getElem?_extract] at found
      split at found
      · exact (tight.plain.threads m.running).captures cell (Array.mem_of_getElem? found)
      · cases found
  simp only [perform, makeClosure, found, bind_apply, get_apply, h.frames, onStore_apply]
  exact .after (tight.plain.withStore made) ((tight.withStore made).pushes rfl loose)

end Tight

/-! ## Instructions that expand a multi-value or pass by one -/

theorem popClosed_tidies (tidy : m.Tidy F.base loose) :
    m.Tidies F.base loose (perform F.closure .popClosed a b m) := by
  have kept (t : Thread) (ht : t.Captured m.store) :
      Thread.Captured m.store { t with captures := t.captures.shrink (t.captures.size - a) } :=
    ht.less (fun _ mem => mem_of_mem_shrink mem) fun _ mem => mem
  simp only [perform, modify_apply]
  exact ⟨tidy.plain.modifyThread _ kept, tidy.modifyCurrent kept rfl⟩

/-- A write of plain values into a table. -/
theorem write_comes (plain : m.Plain) (id : Nat) {key value : Value} (hk : key.isPlain = true)
    (hv : value.isPlain = true) : m.Comes (fun _ => True) (write id key value m) :=
  .onStore plain (HostAction.plain_write id hk hv)

theorem writeFrom_comes (plain : m.Plain) (id : Nat) (start : Float) (offset : Nat) {vs : List Value}
    (h : Value.AllPlain vs) : m.Comes (fun _ => True) (writeFrom id start offset vs m) := by
  induction vs generalizing offset m with
  | nil => exact ⟨trivial, plain.refl⟩
  | cons v vs ih =>
    obtain ⟨hv, hvs⟩ := List.forall_mem_cons.1 h
    exact .bind (write_comes plain id rfl hv) fun _ _ _ _ plain => ih plain (offset + 1) hvs

/-- What comes of writes, which leave the stack alone. -/
theorem written_tidies (tidy : m.Tidy F.base loose) (gone : loose → 1 ≤ 3) {loose' : Prop}
    {r : EStateM.Result Fault Machine Unit} (comes : (m.drop 3).Comes (fun _ => True) r)
    (which : ∃ tables, r = .ok () { m.drop 3 with store := { (m.drop 3).store with tables } } ∨
      ∃ fault, r = .error fault { m.drop 3 with store := { (m.drop 3).store with tables } } ∧
        fault.isDefect = false) : m.Tidies F.base loose' r := by
  refine .after (tidy.plain.drop 3) ?_
  obtain ⟨tables, rfl | ⟨fault, rfl, -⟩⟩ := which
  · exact ⟨comes.2, (tidy.drop gone loose').withStore ⟨comes.2.plain.store, comes.2.keeps⟩⟩
  · exact comes

theorem putTable_tidies (h : Poised m F rest captured d .putTable a b) (tidy : m.Tidy F.base loose)
    {loose' : Prop} : m.Tidies F.base loose' (perform F.closure .putTable a b m) := by
  have key := h.operand tidy (i := 2) (by omega) (by simp [Opcode.operands]) fun _ => Nat.le_refl _
  have value := tidy.plain.top 1
  have dropped := (tidy.plain.drop 3).plain
  simp only [perform, Exec.putTable, bind_apply, pop_apply, Machine.top_drop tidy.inside, Machine.drop_drop,
    Nat.reduceAdd]
  cases m.top 3 with
  | table id =>
    have single : m.Tidies F.base loose' (write id (m.top 2) (m.top 1).first (m.drop 3)) := by
      refine written_tidies tidy (fun _ => by omega) (write_comes dropped id key value.first) ?_
      rcases write_cases id (m.top 2) (m.top 1).first (m.drop 3) with ⟨tables, ok⟩ | ⟨fault, bad, own⟩
      · exact ⟨tables, Or.inl ok⟩
      · exact ⟨_, Or.inr ⟨fault, bad, own⟩⟩
    revert single
    cases m.top 2 <;> intro single <;> try exact single
    rename_i start
    revert single value
    cases m.top 1 <;> intro value single <;> try exact single
    rename_i vs
    exact written_tidies tidy (fun _ => by omega) (writeFrom_comes dropped id start 0 value)
      (writeFrom_cases id start 0 vs (m.drop 3))
  | _ => exact tidy.fails (show Fault.IsPlain (.index _) from trivial) 3

/-- Pushing plain values, one after another. -/
theorem forM_push_tidies (tight : m.Tidy F.base False) {vs : List Value} (h : Value.AllPlain vs)
    (loose' : Prop) : m.Tidies F.base loose' (vs.forM push m) := by
  induction vs generalizing m with
  | nil => exact (tight.mono False.elim).leaves
  | cons v vs ih =>
    obtain ⟨hv, hvs⟩ := List.forall_mem_cons.1 h
    have pushed := tight.pushes hv False
    show m.Tidies F.base loose' ((push v >>= fun _ => vs.forM push) m)
    simp only [bind_apply, push_apply]
    exact .after pushed.1 (ih pushed.2 hvs)

/-- A multi-value on top is expanded for good; the one in the frame's first slot keeps the rest. -/
theorem popVarArgs_tidies (h : Poised m F rest captured d .popVarArgs a b) (tidy : m.Tidy F.base loose)
    (handles : Opcode.popVarArgs.Handles a b d loose) {loose' : Prop} :
    m.Tidies F.base loose' (perform F.closure .popVarArgs a b m) := by
  have expand := h.legal.expand rfl
  have touched := h.touched_le
  have stack := h.stack
  simp only [Opcode.touched] at touched
  obtain ⟨cell, found⟩ := Thread.cell?_isSome (t := m.current) (n := 1) (by omega) (by omega)
  have values := (tidy.plain.store.cell cell).spread
  have dropped := tidy.drop (n := 1) (fun _ => Nat.le_refl _) False
  have drops : (m.modifyCurrent fun t => { t with stack := t.stack.pop }) = m.drop 1 := by
    simp only [Machine.drop, pop_eq_take]
  simp only [perform, Exec.popVarArgs, bind_apply, peek_apply found, modify_apply, drops]
  generalize (m.store.cell cell).spread = vs at values
  refine .after (tidy.plain.drop 1) ?_
  by_cases consumes : b = 1
  · simpa [consumes] using forM_push_tidies dropped (values.adjust a) loose'
  · have first := handles.first rfl (by omega)
    have base : (m.drop 1).current.stack.size ≤ F.base := by
      rw [current_drop tidy.inside]
      simp only [Array.size_extract]
      omega
    have keeps : Value.IsFlat (.multi (vs.drop a)) := values.drop a
    have kept : ((m.drop 1).push (.multi (vs.drop a))).Tidy F.base False :=
      dropped.push keeps (Or.inr (Or.inr base))
    have rest := forM_push_tidies kept (values.adjust a) loose'
    simpa [consumes] using rest.after (dropped.plain.push keeps)

end Poised

namespace Machine

open Exec Poised

variable {m : Machine} {F : Frame} {rest : List Frame} {captured : Nat → Nat} {d : Depths} {op : Opcode}
  {a b : Nat} {loose : Prop}

/-- An instruction that asks for no call. -/
theorem perform_tidies (h : Poised m F rest captured d op a b) (tidy : m.Tidy F.base loose)
    (handles : op.Handles a b d loose) (constants : ∀ v ∈ F.closure.unit.constants, v.isPlain = true)
    (other : op ≠ .ret) (quiet : m.request? op a b = none) :
    m.Tidies F.base (op.opens a b d.depth = true ∨ op = .popClosed ∧ loose) (perform F.closure op a b m) := by
  have tight (closed : op.expands a b = false) : m.Tidy F.base False :=
    tidy.mono fun isLoose => by cases closed.symm.trans (handles.top isLoose)
  cases op with
  | loadK =>
    have found := Array.getElem?_eq_getElem (h.legal.constant rfl)
    simp only [perform, constant, found, bind_apply, pure_apply, push_apply]
    exact (tight rfl).pushes (constants _ (Array.getElem_mem _)) _
  | getStack =>
    have done := h.getStack_tidies (tight rfl)
    generalize perform F.closure .getStack a b m = r at done ⊢
    cases r with
    | ok u m' => exact ⟨done.1, done.2.mono Or.inl⟩
    | error fault m' => exact done
  | putStack => exact h.putStack_tidies (tight rfl)
  | popStack =>
    simp only [perform, modify_apply, Array.shrink_eq_take]
    exact ⟨tidy.plain.drop a, (tight rfl).drop False.elim _⟩
  | getGlobal => exact h.getGlobal_tidies (tight rfl)
  | putGlobal => exact h.putGlobal_tidies (tight rfl)
  | add | sub | mul | div | mod | pow => exact h.arithmetic_tidies (tight rfl) rfl quiet
  | neg => exact h.neg_tidies (tight rfl) quiet
  | concat => exact h.concat_tidies (tight rfl) quiet
  | len => exact len_tidies (tight rfl) quiet
  | eq => exact eq_tidies (tight rfl)
  | not => exact not_tidies (tight rfl)
  | and => exact h.and_tidies (tight rfl)
  | or => exact h.or_tidies (tight rfl)
  | less | lessEq => exact h.compare_tidies (tight rfl) rfl quiet
  | newTable => exact newTable_tidies (tight rfl)
  | putTable => exact h.putTable_tidies tidy
  | getTable => exact getTable_tidies (tight rfl)
  | call => cases quiet
  | jmp => exact jump_tidies (tight rfl) a
  | jmpTrue => exact h.jmpTrue_tidies (tight rfl)
  | popVarArgs => exact h.popVarArgs_tidies tidy handles
  | forPrep => exact h.forPrep_tidies (tight rfl)
  | closeVars => exact h.closeVars_tidies (tight rfl)
  | popClosed =>
    have done := popClosed_tidies (F := F) (a := a) (b := b) tidy
    exact ⟨done.1, done.2.mono fun isLoose => Or.inr ⟨rfl, isLoose⟩⟩
  | closure => exact h.closure_tidies (tight rfl)
  | getUpval => exact h.getUpval_tidies (tight rfl)
  | putUpval => exact h.putUpval_tidies (tight rfl)
  | ret => exact absurd rfl other

theorem Plain.handler? (plain : m.Plain) {event : String} {lhs rhs v : Value}
    (found : m.handler? event lhs rhs = some v) : v.isPlain = true := by
  have first := plain.metamethod lhs event
  have second := plain.metamethod rhs event
  unfold Machine.handler? at found
  cases left : m.metamethod lhs event with
  | error fault =>
    rw [left] at found
    cases found
  | ok handler =>
    rw [left] at found first
    dsimp only at found
    split at found
    · cases right : m.metamethod rhs event with
      | error fault =>
        rw [right] at found
        cases found
      | ok handler' =>
        rw [right] at found second
        dsimp only at found
        split at found
        · cases found
        · cases found
          exact second
    · cases found
      exact first

/-- What an instruction asks for: the call of a plain value with plain arguments. -/
theorem request_plain (h : Poised m F rest captured d op a b) (tidy : m.Tidy F.base loose)
    (handles : op.Handles a b d loose) {callee : Value} {args : List Value} {want : Nat}
    (asked : m.request? op a b = some (callee, args, want)) : callee.isPlain = true ∧ Value.AllPlain args := by
  have tight (closed : op.expands a b = false) : m.Tidy F.base False :=
    tidy.mono fun isLoose => by cases closed.symm.trans (handles.top isLoose)
  have pair {x y : Value} (hx : x.isPlain = true) (hy : y.isPlain = true) : Value.AllPlain [x, y] :=
    .cons hx (.cons hy fun _ mem => absurd mem List.not_mem_nil)
  have binary (closed : op.expands a b = false) (two : op.operands a b = 2) {event : String}
      (found : m.handler? event (m.top 2) (m.top 1) = some callee) (same : args = [m.top 2, m.top 1]) :
      callee.isPlain = true ∧ Value.AllPlain args := by
    rw [same]
    exact ⟨tidy.plain.handler? found, pair (h.operand (tight closed) (by omega) (by omega) False.elim)
      (h.operand (tight closed) (by omega) (by omega) False.elim)⟩
  have unary (closed : op.expands a b = false) (one : op.operands a b = 1) {event : String}
      (found : m.handler? event (m.top 1) (m.top 1) = some callee) (same : args = [m.top 1, m.top 1]) :
      callee.isPlain = true ∧ Value.AllPlain args := by
    have plain := h.operand (tight closed) (i := 1) (by omega) (by omega) False.elim
    rw [same]
    exact ⟨tidy.plain.handler? found, pair plain plain⟩
  cases op with
  | add | sub | mul | div | mod | pow =>
    obtain ⟨-, found, same, -⟩ := of_asked ((request?_arithmetic rfl a b).symm.trans asked)
    exact binary rfl rfl found same
  | neg =>
    obtain ⟨-, found, same, -⟩ := of_asked asked
    exact unary rfl rfl found same
  | concat | less | lessEq =>
    obtain ⟨-, found, same, -⟩ := of_asked asked
    exact binary rfl rfl found same
  | len =>
    obtain ⟨handler, found, same⟩ := Option.map_eq_some_iff.1 asked
    cases same
    exact unary rfl rfl found rfl
  | call =>
    cases asked
    refine ⟨h.operand tidy (by omega) (Nat.le_refl _) fun isLoose => ?_, tidy.plain.spread a⟩
    have := handles.top isLoose
    simp only [Opcode.expands, decide_eq_true_eq] at this
    omega
  | _ => cases asked

/-- The operands of a call take away what was loose, and a call for all results opens a multi-value. -/
theorem request_shape (handles : op.Handles a b d loose) {callee : Value} {args : List Value} {want : Nat}
    (asked : m.request? op a b = some (callee, args, want)) :
    (loose → 1 ≤ op.touched a b) ∧ (want = 0 → op.opens a b d.depth = true) := by
  have operator (closed : op.expands a b = false) (one : want = 1) :
      (loose → 1 ≤ op.touched a b) ∧ (want = 0 → op.opens a b d.depth = true) :=
    ⟨fun isLoose => (by cases closed.symm.trans (handles.top isLoose)), fun none' => by omega⟩
  cases op with
  | add | sub | mul | div | mod | pow =>
    exact operator rfl (of_asked ((request?_arithmetic rfl a b).symm.trans asked)).2.2.2
  | neg | concat | less | lessEq => exact operator rfl (of_asked asked).2.2.2
  | len =>
    obtain ⟨handler, -, same⟩ := Option.map_eq_some_iff.1 asked
    cases same
    exact operator rfl rfl
  | call =>
    cases asked
    refine ⟨fun _ => ?_, fun none' => by simpa [Opcode.opens] using none'⟩
    simp only [Opcode.touched, Opcode.operands]
    omega
  | _ => cases asked

end Machine

end ScriptEngine
