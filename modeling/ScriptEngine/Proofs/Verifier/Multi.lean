import ScriptEngine.Proofs.Verifier.Assignment

/-!
# Where code leaves a multi-value

A call for all results and a copy of the frame's first slot leave a multi-value on top. `Loose` are the
addresses that such an instruction leads to, with nothing but releases of closed variables in between.
Code is `Tame` if every instruction at a loose address expands what is on top, or passes by it, and if
only the frame's first slot is ever expanded in place.
-/

namespace ScriptEngine

/-- Whether a value is no multi-value. -/
def Value.isPlain : Value → Bool
  | multi _ => false
  | _ => true

namespace Opcode

/-- Whether an instruction at a given depth may leave a multi-value on top. -/
def opens (op : Opcode) (a b : Nat) (depth : Int) : Bool :=
  match op with
  | call => b == 0
  | getStack => a == depth
  | _ => false

/-- Whether an instruction expands a multi-value on top, or passes by it. -/
def expands (op : Opcode) (a b : Nat) : Bool :=
  match op with
  | call | ret => 0 < a
  | putTable | popClosed => true
  | popVarArgs => b == 1
  | _ => false

attribute [grind =] opens expands

end Opcode

/-- The addresses where the topmost slot may hold a multi-value. -/
inductive Loose (code : Array Instruction) (depths : Nat → Option Depths) : Nat → Prop where
  | opened {ip : Nat} {ins : Instruction} {op : Opcode} {d : Depths} (here : code[ip]? = some ins)
      (opcode : ins.opcode? = some op) (depth : depths ip = some d)
      (opens : op.opens ins.a.toNat ins.b.toNat d.depth = true) : Loose code depths (ip + 1)
  | passed {ip : Nat} {ins : Instruction} (h : Loose code depths ip) (here : code[ip]? = some ins)
      (opcode : ins.opcode? = some .popClosed) : Loose code depths (ip + 1)

/-- What an instruction must do with the slots that can hold a multi-value: with the one on top if
`loose`, and with the frame's first one. -/
structure Opcode.Handles (op : Opcode) (a b : Nat) (d : Depths) (loose : Prop) : Prop where
  top : loose → op.expands a b = true
  first : op = .popVarArgs → b = 0 → d.depth = 1

/-- Multi-values go to where they are expanded. -/
def Tame (code : Array Instruction) (depths : Nat → Option Depths) : Prop :=
  ∀ ip ins op d, code[ip]? = some ins → ins.opcode? = some op → depths ip = some d →
    op.Handles ins.a.toNat ins.b.toNat d (Loose code depths ip)

/-- The instructions of `code'` are those of `code`, but for the addresses of jumps. -/
def Patches (code code' : Array Instruction) : Prop :=
  ∀ (ip : Nat) (ins' : Instruction), code'[ip]? = some ins' →
    ∃ ins : Instruction, code[ip]? = some ins ∧ ins'.opcode? = ins.opcode? ∧
      (ins' = ins ∨ ∃ op : Opcode, ins.opcode? = some op ∧ op.isJump = true)

namespace Loose

variable {code code' : Array Instruction} {depths depths' : Nat → Option Depths} {ip : Nat}

theorem mono (less : ∀ k d, depths' k = some d → depths k = some d)
    (h : Loose code depths' ip) : Loose code depths ip := by
  induction h with
  | opened here opcode depth opens => exact .opened here opcode (less _ _ depth) opens
  | passed _ here opcode ih => exact .passed ih here opcode

/-- No jump opens anything, so its address does not matter. -/
theorem of_patches (patches : Patches code code') (h : Loose code' depths ip) :
    Loose code depths ip := by
  induction h with
  | @opened k ins' op d here opcode depth opens =>
    obtain ⟨ins, found, same, rfl | ⟨op', jumps, jump⟩⟩ := patches k ins' here
    · exact .opened found opcode depth opens
    · rw [same, jumps] at opcode
      cases opcode
      cases op <;> cases jump <;> cases opens
  | @passed k ins' _ here opcode ih =>
    obtain ⟨ins, found, same, -⟩ := patches k ins' here
    exact .passed ih found (same ▸ opcode)

/-- Whether an address is loose depends on the code before it. -/
theorem of_push {ins : Instruction} {now : Depths} {depths : List Depths}
    (size : depths.length = code.size) (h : Loose (code.push ins) ((depths ++ [now])[·]?) ip)
    (inside : ip ≤ code.size) : Loose code (depths[·]?) ip := by
  induction h with
  | @opened k ins' op d here opcode depth opens =>
    rw [Array.getElem?_push_lt (by omega), ← Array.getElem?_eq_getElem] at here
    rw [List.getElem?_append_left (by omega)] at depth
    exact .opened here opcode depth opens
  | @passed k ins' _ here opcode ih =>
    rw [Array.getElem?_push_lt (by omega), ← Array.getElem?_eq_getElem] at here
    exact .passed (ih (by omega)) here opcode

/-- After the last instruction. -/
theorem push_last {ins : Instruction} {op : Opcode} (opcode : ins.opcode? = some op) {now : Depths}
    {depths : List Depths} (size : depths.length = code.size)
    (h : Loose (code.push ins) ((depths ++ [now])[·]?) (code.size + 1)) :
    op.opens ins.a.toNat ins.b.toNat now.depth = true ∨
      op = .popClosed ∧ Loose code (depths[·]?) code.size := by
  generalize last : code.size + 1 = k at h
  cases h with
  | @opened k ins' op' d here opcode' depth opens =>
    obtain same : k = code.size := by omega
    subst same
    simp only [Array.getElem?_push_size, Option.some.injEq] at here
    simp only [← size, List.getElem?_concat_length, Option.some.injEq] at depth
    subst here depth
    rw [opcode, Option.some.injEq] at opcode'
    exact Or.inl (opcode' ▸ opens)
  | @passed k ins' before here opcode' =>
    obtain same : k = code.size := by omega
    subst same
    simp only [Array.getElem?_push_size, Option.some.injEq] at here
    subst here
    rw [opcode, Option.some.injEq] at opcode'
    exact Or.inr ⟨opcode', before.of_push size (Nat.le_refl _)⟩

end Loose

namespace Tame

variable {code code' : Array Instruction} {depths depths' : Nat → Option Depths}

theorem mono (less : ∀ k d, depths' k = some d → depths k = some d) (h : Tame code depths) :
    Tame code depths' := fun ip ins op d here opcode depth =>
  have handles := h ip ins op d here opcode (less _ _ depth)
  ⟨fun loose => handles.top (loose.mono less), handles.first⟩

theorem patch (patches : Patches code code') (h : Tame code depths) : Tame code' depths := by
  intro ip ins' op d here opcode depth
  obtain ⟨ins, found, same, rfl | ⟨op', jumps, jump⟩⟩ := patches ip ins' here
  · have handles := h ip ins' op d found opcode depth
    exact ⟨fun loose => handles.top (loose.of_patches patches), handles.first⟩
  · rw [same, jumps] at opcode
    cases opcode
    have handles := h ip ins op d found jumps depth
    refine ⟨fun loose => ?_, ?_⟩
    · have := handles.top (loose.of_patches patches)
      cases op <;> cases jump <;> cases this
    · rintro rfl
      cases jump

/-- One more instruction that handles what may be on top. -/
theorem push {ins : Instruction} {op : Opcode} (opcode : ins.opcode? = some op) {now : Depths}
    {depths : List Depths} (size : depths.length = code.size) (h : Tame code (depths[·]?))
    (handles : op.Handles ins.a.toNat ins.b.toNat now (Loose code (depths[·]?) code.size)) :
    Tame (code.push ins) ((depths ++ [now])[·]?) := by
  intro ip ins' op' d here opcode' depth
  rw [Array.getElem?_push] at here
  split at here
  · rename_i last
    subst last
    cases here
    rw [opcode, Option.some.injEq] at opcode'
    simp only [← size, List.getElem?_concat_length, Option.some.injEq] at depth
    subst opcode' depth
    exact ⟨fun loose => handles.top (loose.of_push size (Nat.le_refl _)), handles.first⟩
  · have bound := (Array.getElem?_eq_some_iff.1 here).1
    simp only [List.getElem?_append_left (show ip < depths.length by omega)] at depth
    have old := h ip ins' op' d here opcode' depth
    exact ⟨fun loose => old.top (loose.of_push size (Nat.le_of_lt bound)), old.first⟩

end Tame

end ScriptEngine
