import Mathlib
import ScriptEngine.CodeUnit.Verifier

/-!
# Assignments of depths to addresses

An assignment gives some addresses of a unit the depths that control enters them with. It is
consistent if the first instruction has the initial depths, and every instruction that has depths
passes its check and hands the depths after it to all its successors.

The verifier's record is a consistent assignment (`assigned_of_depths`), and it is the least one:
if there is a consistent assignment at all, exploration succeeds and records nothing else
(`depths_of_assigned`).
-/

namespace ScriptEngine.Verifier

-- The equations of these functions are worked out here, and not again in each proof that opens one.
attribute [grind =] Instruction.stackEffect Instruction.closedEffect Opcode.byte Opcode.isJump operandFlaw?
  successors

/-- `at?` gives depths to addresses of `u` so that every path agrees with it. -/
structure Assigned (u : CodeUnit) (at? : Nat → Option Depths) : Prop where
  start : at? 0 = some .initial
  step : ∀ ip d, at? ip = some d → ∃ ins op after, u.code[ip]? = some ins ∧
    checkInstruction u ins d = .ok (op, after) ∧
    ∀ q ∈ successors op ins.a.toNat ip, at? q = some after

/-- The depths recorded for an address. -/
def Record.at? (record : Record) (ip : Nat) : Option Depths := (record[ip]?).join

theorem Record.at?_eq_some {record : Record} {ip : Nat} {d : Depths} :
    record.at? ip = some d ↔ record[ip]? = some (some d) := by
  simp [Record.at?, Option.join_eq_some_iff]

theorem Record.at?_set {record : Record} {ip : Nat} (d : Depths) (q : Nat)
    (h : record[ip]? = some none) :
    Record.at? (record.setIfInBounds ip (some d)) q = if q = ip then some d else record.at? q := by
  have bound : ip < record.size := (Array.getElem?_eq_some_iff.1 h).1
  by_cases same : q = ip
  · subst same
    simp [Record.at?, bound]
  · have other : ip ≠ q := fun e => same e.symm
    simp [Record.at?, Array.getElem?_setIfInBounds_ne other, same]

theorem Record.at?_replicate (n ip : Nat) : Record.at? (Array.replicate n none) ip = none := by
  simp only [Record.at?, Array.getElem?_replicate]
  split <;> rfl

/-- Every recorded instruction passes its check, and each of its successors is recorded with the
depths after it or still to be explored with them. -/
def Covered (u : CodeUnit) (record : Record) (work : List (Nat × Depths)) : Prop :=
  ∀ ip d, record.at? ip = some d → ∃ ins op after, u.code[ip]? = some ins ∧
    checkInstruction u ins d = .ok (op, after) ∧
    ∀ q ∈ successors op ins.a.toNat ip, record.at? q = some after ∨ (q, after) ∈ work

/-- What is known of a record survives exploration, and so does what was to be explored. -/
theorem explore_sound {u : CodeUnit} {record final : Record} {work : List (Nat × Depths)}
    (covered : Covered u record work) (run : explore u record work = .ok final) :
    Covered u final [] ∧ (∀ ip d, record.at? ip = some d → final.at? ip = some d) ∧
      ∀ ip d, (ip, d) ∈ work → final.at? ip = some d := by
  fun_induction explore u record work with
  | case1 record =>
    cases run
    exact ⟨covered, fun _ _ h => h, fun _ _ h => absurd h (by simp)⟩
  | case2 record ip rest ins earlier seen code ih =>
    have known : record.at? ip = some earlier := Record.at?_eq_some.2 seen
    have covered' : Covered u record rest := by
      intro q d hq
      obtain ⟨ins, op, after, hcode, hcheck, hsucc⟩ := covered q d hq
      refine ⟨ins, op, after, hcode, hcheck, fun r hr => ?_⟩
      rcases hsucc r hr with h | h
      · exact Or.inl h
      · rcases List.mem_cons.1 h with h | h
        · obtain ⟨rfl, rfl⟩ := Prod.mk.inj h
          exact Or.inl known
        · exact Or.inr h
    obtain ⟨closed, kept, explored⟩ := ih covered' run
    refine ⟨closed, kept, fun q d h => ?_⟩
    rcases List.mem_cons.1 h with h | h
    · obtain ⟨rfl, rfl⟩ := Prod.mk.inj h
      exact kept _ _ known
    · exact explored q d h
  | case3 => cases run
  | case4 => cases run
  | case5 record ip d rest ins fresh code op after check _ ih =>
    have unknown : record.at? ip = none := by simp [Record.at?, fresh]
    have at_set := Record.at?_set d (h := fresh)
    have covered' : Covered u (record.setIfInBounds ip (some d))
        ((successors op ins.a.toNat ip).map (·, after) ++ rest) := by
      intro q e hq
      rw [at_set] at hq
      split at hq
      · rename_i same
        subst same
        cases hq
        refine ⟨ins, op, after, code, check, fun r hr => Or.inr ?_⟩
        exact List.mem_append_left _ (List.mem_map.2 ⟨r, hr, rfl⟩)
      · obtain ⟨ins', op', after', hcode, hcheck, hsucc⟩ := covered q e hq
        refine ⟨ins', op', after', hcode, hcheck, fun r hr => ?_⟩
        rcases hsucc r hr with h | h
        · refine Or.inl ?_
          rw [at_set]
          split
          · rename_i same
            rw [same, unknown] at h
            cases h
          · exact h
        · rcases List.mem_cons.1 h with h | h
          · obtain ⟨rfl, rfl⟩ := Prod.mk.inj h
            exact Or.inl (by rw [at_set, if_pos rfl])
          · exact Or.inr (List.mem_append_right _ h)
    obtain ⟨closed, kept, explored⟩ := ih covered' run
    refine ⟨closed, fun q e hq => kept q e ?_, fun q e h => ?_⟩
    · rw [at_set]
      split
      · rename_i same
        rw [same, unknown] at hq
        cases hq
      · exact hq
    · rcases List.mem_cons.1 h with h | h
      · obtain ⟨rfl, rfl⟩ := Prod.mk.inj h
        exact kept _ _ (by rw [at_set, if_pos rfl])
      · exact explored q e (List.mem_append_right _ h)
  | case6 => cases run

/-- The verifier's record is a consistent assignment. -/
theorem assigned_of_depths {u : CodeUnit} {record : Record} (h : depths u = .ok record) :
    Assigned u record.at? := by
  have empty : Covered u (Array.replicate u.code.size none) [(0, .initial)] := by
    intro ip d known
    rw [Record.at?_replicate] at known
    cases known
  obtain ⟨covered, -, explored⟩ := explore_sound empty h
  refine ⟨explored 0 .initial (by simp), fun ip d known => ?_⟩
  obtain ⟨ins, op, after, code, check, succ⟩ := covered ip d known
  exact ⟨ins, op, after, code, check, fun q hq => (succ q hq).resolve_right (by simp)⟩

/-- Exploration that starts within a consistent assignment succeeds and stays within it. -/
theorem explore_complete {u : CodeUnit} {at? : Nat → Option Depths} (assigned : Assigned u at?)
    {record : Record} {work : List (Nat × Depths)} (size : record.size = u.code.size)
    (within : ∀ ip d, record.at? ip = some d → at? ip = some d)
    (agreed : ∀ ip d, (ip, d) ∈ work → at? ip = some d) :
    ∃ final, explore u record work = .ok final ∧
      ∀ ip d, final.at? ip = some d → at? ip = some d := by
  fun_induction explore u record work with
  | case1 record => exact ⟨record, rfl, within⟩
  | case2 record ip rest ins earlier seen code ih =>
    exact ih size within fun q d h => agreed q d (List.mem_cons_of_mem _ h)
  | case3 record ip d rest ins earlier seen code differ =>
    have h1 := within ip earlier (Record.at?_eq_some.2 seen)
    have h2 := agreed ip d (List.mem_cons_self ..)
    rw [h1] at h2
    exact absurd (Option.some.inj h2) differ
  | case4 record ip d rest ins fresh code flaw check =>
    obtain ⟨ins', op, after, code', check', -⟩ :=
      assigned.step ip d (agreed ip d (List.mem_cons_self ..))
    rw [code] at code'
    cases code'
    rw [check] at check'
    cases check'
  | case5 record ip d rest ins fresh code op after check _ ih =>
    have here := agreed ip d (List.mem_cons_self ..)
    refine ih (by simpa using size) (fun q e hq => ?_) (fun q e h => ?_)
    · rw [Record.at?_set d q fresh] at hq
      split at hq
      · rename_i same
        subst same
        rw [here, hq]
      · exact within q e hq
    · rcases List.mem_append.1 h with h | h
      · obtain ⟨r, hr, pair⟩ := List.mem_map.1 h
        obtain ⟨rfl, rfl⟩ := Prod.mk.inj pair
        obtain ⟨ins', op', after', code', check', succ⟩ := assigned.step ip d here
        rw [code] at code'
        cases code'
        rw [check] at check'
        cases check'
        exact succ r hr
      · exact agreed q e (List.mem_cons_of_mem _ h)
  | case6 record ip d rest seen fresh =>
    -- the address has an instruction, so the record has a place for it
    obtain ⟨ins, op, after, code, -, -⟩ :=
      assigned.step ip d (agreed ip d (List.mem_cons_self ..))
    have bound : ip < record.size := by
      rw [size]
      exact (Array.getElem?_eq_some_iff.1 code).1
    have place : record[ip]? = some record[ip] := Array.getElem?_eq_getElem bound
    cases here : record[ip] with
    | none => exact absurd (here ▸ place) (fresh ins code)
    | some earlier => exact absurd (here ▸ place) (seen ins earlier code)

/-- If there is a consistent assignment, the verifier accepts the unit, and its record says nothing
that the assignment does not say. -/
theorem depths_of_assigned {u : CodeUnit} {at? : Nat → Option Depths} (assigned : Assigned u at?) :
    ∃ record, depths u = .ok record ∧ ∀ ip d, record.at? ip = some d → at? ip = some d := by
  refine explore_complete assigned (by simp) (fun ip d known => ?_) (fun ip d h => ?_)
  · rw [Record.at?_replicate] at known
    cases known
  · rcases List.mem_singleton.1 h with h
    obtain ⟨rfl, rfl⟩ := Prod.mk.inj h
    exact assigned.start

end ScriptEngine.Verifier
