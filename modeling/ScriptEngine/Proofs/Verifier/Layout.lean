import ScriptEngine.Proofs.Verifier.Multi

/-!
# Laid out units

The verifier checks offsets and depths. Compiled code keeps to more: an instruction works only on
slots above the frame's first one, a global is named by a string, an upvalue is one that the closure
has, and a closure is made of a nested unit with exactly the cells that the unit was compiled for.
`Legal` states this for one instruction, `Layout` for a unit with all units nested in it, whose constants
are plain and whose multi-values go to where they are expanded (`Tame`). A laid out unit passes the
verifier, and its depths are the ones that the verifier records.
-/

namespace ScriptEngine

namespace Depths

/-- The depths after an instruction. -/
def after (d : Depths) (op : Opcode) (a b : Nat) : Depths :=
  ⟨d.depth + Instruction.stackEffect op a b, d.closed + Instruction.closedEffect op a⟩

end Depths

namespace Opcode

/-- The number of slots on top that an instruction works on, reads by an offset aside. -/
def operands (op : Opcode) (a b : Nat) : Nat :=
  match op with
  | loadK | getStack | getGlobal | jmp | popClosed | closure | getUpval | newTable => 0
  | putStack | putGlobal | putUpval | neg | len | not | jmpTrue => 1
  | add | sub | mul | div | pow | concat | mod | eq | and | or | lessEq | less | getTable => 2
  | forPrep | putTable => 3
  | popStack | ret | closeVars => a
  | call => a + 1
  | popVarArgs => b

attribute [grind =] operands

/-- An instruction takes no more slots away than it works on. -/
theorem neg_operands_le_stackEffect (op : Opcode) (a b : Nat) :
    -(op.operands a b : Int) ≤ Instruction.stackEffect op a b := by
  cases op <;> simp only [operands, Instruction.stackEffect] <;> omega

/-- Whether control can go on at the next address. -/
def continues : Opcode → Bool
  | ret | jmp => false
  | _ => true

end Opcode

namespace Verifier

theorem mem_successors {op : Opcode} {a ip q : Nat} : q ∈ successors op a ip ↔
    (op.continues = true ∧ q = ip + 1) ∨ (op.isJump = true ∧ q = a) := by
  cases op <;> simp [successors, Opcode.continues, Opcode.isJump]

/-- An instruction passes its check if its operands do and the depths after it are not too low. -/
theorem checkInstruction_eq_ok_iff {u : CodeUnit} {ins : Instruction} {op : Opcode} {d after : Depths} :
    checkInstruction u ins d = .ok (op, after) ↔
      ins.opcode? = some op ∧ operandFlaw? u op ins.a.toNat d.depth = none ∧
        after = d.after op ins.a.toNat ins.b.toNat ∧ 1 ≤ after.depth ∧ 0 ≤ after.closed := by
  unfold checkInstruction
  cases opcode : ins.opcode? with
  | none => simp
  | some op' =>
    dsimp only
    cases flaw : operandFlaw? u op' ins.a.toNat d.depth with
    | some flaw' =>
      simp only [reduceCtorEq, Option.some.injEq, false_iff]
      rintro ⟨rfl, fine, -⟩
      rw [flaw] at fine
      cases fine
    | none =>
      dsimp only
      split
      · rename_i low
        simp only [reduceCtorEq, Option.some.injEq, false_iff]
        rintro ⟨rfl, -, rfl, deep, -⟩
        exact absurd low (Int.not_lt.2 deep)
      · rename_i deep
        split
        · rename_i low
          simp only [reduceCtorEq, Option.some.injEq, false_iff]
          rintro ⟨rfl, -, rfl, -, held⟩
          exact absurd low (Int.not_lt.2 held)
        · rename_i held
          simp only [Except.ok.injEq, Prod.mk.injEq, Option.some.injEq]
          constructor
          · rintro ⟨rfl, rfl⟩
            exact ⟨rfl, flaw, rfl, Int.not_lt.1 deep, Int.not_lt.1 held⟩
          · rintro ⟨rfl, -, rfl, -⟩
            exact ⟨rfl, rfl⟩

end Verifier

/-- What an instruction needs of its unit, of the number of upvalues, and of the depths it is entered
with. `captured` is the number of upvalues that closures of a nested unit have. -/
structure Legal (u : CodeUnit) (upvalues : Nat) (captured : Nat → Nat) (op : Opcode) (a b : Nat)
    (d : Depths) : Prop where
  operands : (op.operands a b : Int) < d.depth
  closed : 0 ≤ d.closed
  read : op = .getStack → 1 ≤ a ∧ (a : Int) ≤ d.depth
  write : op = .putStack → 2 ≤ a ∧ (a : Int) < d.depth
  constant : op = .loadK → a < u.constants.size
  global : op = .getGlobal ∨ op = .putGlobal → ∃ name, u.constants[a]? = some (.string name)
  expand : op = .popVarArgs → b ≤ 1
  release : op = .popClosed → (a : Int) ≤ d.closed
  upvalue : op = .getUpval ∨ op = .putUpval → a < upvalues
  nested : op = .closure → ∃ c, u.child? a = some c ∧ (captured a : Int) = upvalues + d.closed

/-- A unit whose closures have the given number of upvalues is laid out by depths for its addresses
and by the numbers of upvalues of its nested units. -/
inductive Layout : Nat → CodeUnit → Prop where
  | intro {upvalues : Nat} {u : CodeUnit} (at? : Nat → Option Depths) (captured : Nat → Nat)
      (start : at? 0 = some .initial)
      (legal : ∀ ip d, at? ip = some d → ∃ ins op, u.code[ip]? = some ins ∧ ins.opcode? = some op ∧
        Legal u upvalues captured op ins.a.toNat ins.b.toNat d ∧
        ∀ q ∈ Verifier.successors op ins.a.toNat ip,
          at? q = some (d.after op ins.a.toNat ins.b.toNat))
      (tame : Tame u.code at?) (constants : ∀ v ∈ u.constants, v.isPlain = true)
      (nested : ∀ c ∈ u.children, Layout (captured c.id) c) :
      Layout upvalues u

namespace Legal

variable {u v : CodeUnit} {upvalues : Nat} {captured : Nat → Nat} {op : Opcode} {a b : Nat}
  {d : Depths}

/-- No instruction takes the frame's first slot away. -/
theorem depth_after (h : Legal u upvalues captured op a b d) : 1 ≤ (d.after op a b).depth := by
  have lower := h.operands
  have effect := op.neg_operands_le_stackEffect a b
  simp only [Depths.after]
  omega

theorem closed_after (h : Legal u upvalues captured op a b d) : 0 ≤ (d.after op a b).closed := by
  have lower := h.closed
  have release := h.release
  simp only [Depths.after]
  unfold Instruction.closedEffect
  split
  · omega
  · have := release rfl
    omega
  · omega

theorem operandFlaw?_eq_none (h : Legal u upvalues captured op a b d) :
    Verifier.operandFlaw? u op a d.depth = none := by
  cases op with
  | getStack =>
    have := h.read rfl
    simp [Verifier.operandFlaw?]
    omega
  | putStack =>
    have := h.write rfl
    simp [Verifier.operandFlaw?]
    omega
  | loadK =>
    have := h.constant rfl
    simp [Verifier.operandFlaw?]
    omega
  | getGlobal =>
    obtain ⟨name, found⟩ := h.global (Or.inl rfl)
    have := (Array.getElem?_eq_some_iff.1 found).1
    simp [Verifier.operandFlaw?]
    omega
  | putGlobal =>
    obtain ⟨name, found⟩ := h.global (Or.inr rfl)
    have := (Array.getElem?_eq_some_iff.1 found).1
    simp [Verifier.operandFlaw?]
    omega
  | closure =>
    obtain ⟨c, found, -⟩ := h.nested rfl
    simp [Verifier.operandFlaw?, found]
  | _ => rfl

/-- A legal instruction passes the verifier's check. -/
theorem checkInstruction_eq {ins : Instruction} (code : ins.opcode? = some op)
    (h : Legal u upvalues captured op ins.a.toNat ins.b.toNat d) :
    Verifier.checkInstruction u ins d = .ok (op, d.after op ins.a.toNat ins.b.toNat) :=
  Verifier.checkInstruction_eq_ok_iff.2
    ⟨code, h.operandFlaw?_eq_none, rfl, h.depth_after, h.closed_after⟩

/-- Legality only asks for constants and nested units that are there, so more of them do no harm. -/
theorem extend {captured' : Nat → Nat} (h : Legal u upvalues captured op a b d)
    (constants : ∀ (i : Nat) x, u.constants[i]? = some x → v.constants[i]? = some x)
    (children : ∀ id c, u.child? id = some c → v.child? id = some c ∧ captured' id = captured id) :
    Legal v upvalues captured' op a b d where
  operands := h.operands
  closed := h.closed
  read := h.read
  write := h.write
  constant e := by
    have bound := h.constant e
    have := constants a _ (Array.getElem?_eq_getElem bound)
    exact (Array.getElem?_eq_some_iff.1 this).1
  global e := by
    obtain ⟨name, found⟩ := h.global e
    exact ⟨name, constants a _ found⟩
  expand := h.expand
  release := h.release
  upvalue := h.upvalue
  nested e := by
    obtain ⟨c, found, cells⟩ := h.nested e
    obtain ⟨found', same⟩ := children a c found
    exact ⟨c, found', by rw [same]; exact cells⟩

end Legal

theorem CodeUnit.mem_walkAll {v : CodeUnit} {units : List CodeUnit} :
    v ∈ walkAll units ↔ ∃ c ∈ units, v ∈ c.walk := by
  induction units with
  | nil => simp [walkAll]
  | cons c rest ih => simp [walkAll, ih]

namespace Layout

variable {upvalues : Nat} {u : CodeUnit}

/-- The depths of a laid out unit are a consistent assignment. -/
theorem assigned {at? : Nat → Option Depths} {captured : Nat → Nat}
    (start : at? 0 = some .initial)
    (legal : ∀ ip d, at? ip = some d → ∃ ins op, u.code[ip]? = some ins ∧ ins.opcode? = some op ∧
      Legal u upvalues captured op ins.a.toNat ins.b.toNat d ∧
      ∀ q ∈ Verifier.successors op ins.a.toNat ip,
        at? q = some (d.after op ins.a.toNat ins.b.toNat)) :
    Verifier.Assigned u at? := by
  refine ⟨start, fun ip d here => ?_⟩
  obtain ⟨ins, op, code, opcode, ok, next⟩ := legal ip d here
  exact ⟨ins, op, _, code, ok.checkInstruction_eq opcode, next⟩

/-- A laid out unit with its record: what the verifier records is legal, and each nested unit is laid
out for the upvalues that its closures get. -/
structure Recorded (upvalues : Nat) (u : CodeUnit) (record : Verifier.Record)
    (captured : Nat → Nat) : Prop where
  depths : Verifier.depths u = .ok record
  start : record.at? 0 = some .initial
  legal : ∀ ip d, record.at? ip = some d → ∃ ins op, u.code[ip]? = some ins ∧
    ins.opcode? = some op ∧ Legal u upvalues captured op ins.a.toNat ins.b.toNat d ∧
    ∀ q ∈ Verifier.successors op ins.a.toNat ip,
      record.at? q = some (d.after op ins.a.toNat ins.b.toNat)
  tame : Tame u.code record.at?
  constants : ∀ v ∈ u.constants, v.isPlain = true
  nested : ∀ c ∈ u.children, Layout (captured c.id) c

/-- The verifier accepts a laid out unit, and its record has the same properties as the layout. -/
theorem recorded (h : Layout upvalues u) : ∃ record captured, Recorded upvalues u record captured := by
  obtain ⟨at?, captured, start, legal, tame, constants, nested⟩ := h
  obtain ⟨record, accepted, within⟩ := Verifier.depths_of_assigned (assigned start legal)
  have least := Verifier.assigned_of_depths accepted
  refine ⟨record, captured, accepted, least.start, fun ip d here => ?_, tame.mono within, constants,
    nested⟩
  obtain ⟨ins, op, code, opcode, ok, -⟩ := legal ip d (within ip d here)
  obtain ⟨ins', op', after, code', check, next⟩ := least.step ip d here
  rw [code] at code'
  cases code'
  rw [ok.checkInstruction_eq opcode] at check
  cases check
  exact ⟨ins, op, code, opcode, ok, next⟩

/-- All units nested in a laid out unit are laid out. -/
theorem of_mem_walk (h : Layout upvalues u) : ∀ v ∈ u.walk, ∃ n, Layout n v := by
  induction h with
  | intro at? captured start legal tame constants nested ih =>
    intro v hv
    rw [CodeUnit.walk_eq] at hv
    rcases List.mem_cons.1 hv with rfl | hv
    · exact ⟨_, .intro at? captured start legal tame constants nested⟩
    · obtain ⟨c, hc, hv⟩ := CodeUnit.mem_walkAll.1 hv
      exact ih c hc v hv

/-- The verifier accepts a laid out unit with all units nested in it. -/
theorem verify_eq (h : Layout upvalues u) : Verifier.verify u = .ok () := by
  have accepted : ∀ v ∈ u.walk, ∃ record, Verifier.depths v = .ok record := by
    intro v hv
    obtain ⟨n, layout⟩ := h.of_mem_walk v hv
    obtain ⟨record, captured, recorded⟩ := layout.recorded
    exact ⟨record, recorded.depths⟩
  unfold Verifier.verify
  generalize u.walk = units at accepted
  induction units with
  | nil => rfl
  | cons v rest ih =>
    obtain ⟨record, ok⟩ := accepted v (List.mem_cons_self ..)
    rw [List.forM, ok]
    exact ih fun w hw => accepted w (List.mem_cons_of_mem _ hw)

end Layout

end ScriptEngine
