import Mathlib
import ScriptEngine.CodeUnit.Builder

/-!
# Finished code

`Builder.finish` gives every emitted jump the address of its label and changes nothing else.
`finish_eq_ok` says this word by word.
-/

namespace ScriptEngine.Builder

/-- The label of the last jump emitted at an address. -/
def jumpTo? (ip : Nat) : List (Nat × Nat) → Option Nat
  | [] => none
  | jump :: rest => (jumpTo? ip rest).or (if jump.1 = ip then some jump.2 else none)

theorem mem_of_jumpTo? {ip l : Nat} {pending : List (Nat × Nat)}
    (h : jumpTo? ip pending = some l) : (ip, l) ∈ pending := by
  induction pending with
  | nil => cases h
  | cons jump rest ih =>
    simp only [jumpTo?, Option.or_eq_some_iff] at h
    rcases h with h | ⟨-, h⟩
    · exact List.mem_cons_of_mem _ (ih h)
    · split at h
      · rename_i here
        cases h
        subst here
        exact List.mem_cons_self ..
      · cases h

theorem jumpTo?_isSome {ip l : Nat} {pending : List (Nat × Nat)} (h : (ip, l) ∈ pending) :
    (jumpTo? ip pending).isSome := by
  induction pending with
  | nil => cases h
  | cons jump rest ih =>
    rcases List.mem_cons.1 h with rfl | h
    · simp [jumpTo?]
    · simp [jumpTo?, ih h]

/-- An instruction as it stands in finished code: a jump has the address of its label. -/
def patched (b : Builder) (ip : Nat) (ins : Instruction) (pending : List (Nat × Nat)) : Instruction :=
  match jumpTo? ip pending with
  | some l => { ins with a := ((b.labelAddress? l).getD 0).toUInt16 }
  | none => ins

/-- Filling in addresses succeeds if all labels have places, and patches every instruction. -/
theorem foldlM_resolve (b : Builder) (name : String) (pending : List (Nat × Nat))
    (code : Array Instruction) (settled : ∀ jump ∈ pending, (b.labelAddress? jump.2).isSome) :
    ∃ final, pending.foldlM (b.resolve name) code = .ok final ∧
      ∀ ip : Nat, final[ip]? = (code[ip]?).map (b.patched ip · pending) := by
  induction pending generalizing code with
  | nil => exact ⟨code, rfl, fun ip => by simp [patched, jumpTo?]⟩
  | cons jump rest ih =>
    obtain ⟨address, found⟩ := Option.isSome_iff_exists.1 (settled jump (List.mem_cons_self ..))
    obtain ⟨final, run, words⟩ := ih (code.modify jump.1 fun ins => { ins with a := address.toUInt16 })
      fun j hj => settled j (List.mem_cons_of_mem _ hj)
    refine ⟨final, ?_, fun ip => ?_⟩
    · rw [List.foldlM_cons]
      simp only [resolve, found]
      exact run
    · rw [words ip, Array.getElem?_modify]
      by_cases here : jump.1 = ip
      · cases later : jumpTo? ip rest with
        | some l => simp [patched, jumpTo?, later, here, Function.comp_def]
        | none => simp [patched, jumpTo?, later, here, found, Function.comp_def]
      · simp [patched, jumpTo?, here]

/-- Finishing fails if the label of some jump has no place. -/
theorem foldlM_resolve_error (b : Builder) (name : String) (pending : List (Nat × Nat))
    (code : Array Instruction) (open' : ∃ jump ∈ pending, b.labelAddress? jump.2 = none) :
    pending.foldlM (b.resolve name) code = .error (.unresolvedLabel name) := by
  induction pending generalizing code with
  | nil => obtain ⟨jump, mem, -⟩ := open'; cases mem
  | cons jump rest ih =>
    rw [List.foldlM_cons]
    cases found : b.labelAddress? jump.2 with
    | none => simp only [resolve, found]; rfl
    | some address =>
      obtain ⟨other, mem, missing⟩ := open'
      rcases List.mem_cons.1 mem with rfl | mem
      · rw [found] at missing
        cases missing
      · simp only [resolve, found]
        exact ih _ ⟨other, mem, missing⟩

/-- A finished unit holds the emitted instructions in order, each jump with the address of its
label, and everything else that the builder holds. -/
theorem finish_eq_ok {b : Builder} {id : Nat} {name source : String} {u : CodeUnit}
    (h : b.finish id name source = .ok u) :
    b.code.size ≤ maxOperand ∧ (∀ jump ∈ b.pending, (b.labelAddress? jump.2).isSome) ∧
      (∀ ip : Nat, u.code[ip]? = (b.code[ip]?).map (b.patched ip · b.pending.toList)) ∧
      u.id = id ∧ u.name = name ∧ u.source = source ∧ u.constants = b.constants ∧
      u.children = b.children.reverse ∧ u.lines = b.lines ∧ u.paramCount = b.paramCount ∧
      u.isVararg = b.isVararg := by
  unfold finish at h
  split at h
  · cases h
  · rename_i small
    rw [← Array.foldlM_toList] at h
    by_cases settled : ∀ jump ∈ b.pending.toList, (b.labelAddress? jump.2).isSome
    · obtain ⟨final, run, words⟩ := foldlM_resolve b name b.pending.toList b.code settled
      rw [run] at h
      cases h
      exact ⟨by omega, fun jump mem => settled jump (by simpa using mem), words,
        rfl, rfl, rfl, rfl, rfl, rfl, rfl, rfl⟩
    · have missing : ∃ jump ∈ b.pending.toList, b.labelAddress? jump.2 = none := by
        simp only [Classical.not_forall, Option.not_isSome_iff_eq_none] at settled
        obtain ⟨jump, mem, none'⟩ := settled
        exact ⟨jump, mem, none'⟩
      rw [foldlM_resolve_error b name _ _ missing] at h
      cases h

/-- Finishing fails only for the size of the code or for a label without a place. -/
theorem finish_error {b : Builder} {id : Nat} {name source : String} {e : CompileError}
    (h : b.finish id name source = .error e) :
    (maxOperand < b.code.size ∧ e = .tooLarge name b.code.size) ∨
      ∃ jump ∈ b.pending, b.labelAddress? jump.2 = none := by
  unfold finish at h
  split at h
  · rename_i large
    cases h
    exact Or.inl ⟨large, rfl⟩
  · by_cases settled : ∀ jump ∈ b.pending.toList, (b.labelAddress? jump.2).isSome
    · obtain ⟨final, run, -⟩ := foldlM_resolve b name b.pending.toList b.code settled
      rw [← Array.foldlM_toList, run] at h
      cases h
    · simp only [Classical.not_forall, Option.not_isSome_iff_eq_none] at settled
      obtain ⟨jump, mem, none'⟩ := settled
      exact Or.inr ⟨jump, by simpa using mem, none'⟩

end ScriptEngine.Builder
