import ScriptEngine.Proofs.Machine.Instruction

/-!
# The call that an instruction makes

What `request?` says an instruction asks for is what it calls, with its operands taken away
(`calls_of_request`). This needs nothing of the program: operands that are not there count as `nil`.
-/

set_option linter.dupNamespace false

namespace ScriptEngine

namespace Exec

variable {m : Machine}

theorem callMetamethod_of_handler {event : String} {lhs rhs handler : Value} {fault : Fault}
    (found : m.handler? event lhs rhs = some handler) :
    callMetamethod event lhs rhs fault m = call handler [lhs, rhs] 1 m := by
  simp only [Machine.handler?] at found
  simp only [callMetamethod, bind_apply, get_apply]
  cases left : m.metamethod lhs event with
  | error fault' =>
    rw [left] at found
    cases found
  | ok first =>
    simp only [left] at found
    simp only [ofExcept_ok]
    by_cases missing : first.isNil = true
    · simp only [if_pos missing, bind_apply] at found ⊢
      cases right : m.metamethod rhs event with
      | error fault' =>
        rw [right] at found
        cases found
      | ok second =>
        simp only [right] at found
        simp only [ofExcept_ok]
        by_cases missing' : second.isNil = true
        · simp [missing'] at found
        · simp only [if_neg missing'] at found ⊢
          cases found
          rfl
    · simp only [if_neg missing, bind_apply, pure_apply] at found ⊢
      cases found
      rfl

end Exec

namespace Machine

variable {m : Machine} {F : Frame} {rest : List Frame} {op : Opcode} {a b : Nat} {callee : Value}
  {args : List Value} {want : Nat}

open Exec

/-- The instruction is over when the call is, or it goes on to judge its result. -/
def Calls (m : Machine) (F : Frame) (rest : List Frame) (op : Opcode) (a b : Nat) (callee : Value)
    (args : List Value) (want : Nat) : Prop :=
  perform F.closure op a b m = Exec.call callee args want (m.drop (op.touched a b)) ∨
    want = 1 ∧ perform F.closure op a b m =
      (do Exec.call callee args want; judge m.running (rest.length + 1)) (m.drop (op.touched a b))

/-- What an operator asks for that a handler decides. -/
theorem of_asked {c : Prop} [Decidable c] {found : Option Value} {vs : List Value}
    (asked : (if c then none else found.map (·, vs, 1)) = some (callee, args, want)) :
    ¬c ∧ found = some callee ∧ args = vs ∧ want = 1 := by
  split at asked
  · cases asked
  · rename_i other
    obtain ⟨handler, found, same⟩ := Option.map_eq_some_iff.1 asked
    cases same
    exact ⟨other, found, rfl, rfl⟩

theorem touched_arithmetic {operator : Arithmetic} (which : op.arithmetic? = some operator) :
    op.touched a b = 2 := by
  cases op <;> first | rfl | cases which

theorem request?_arithmetic {operator : Arithmetic} (which : op.arithmetic? = some operator) (a b : Nat) :
    m.request? op a b = if (m.top 2).number?.isSome ∧ (m.top 1).number?.isSome then none
      else (m.handler? operator.event (m.top 2) (m.top 1)).map (·, [m.top 2, m.top 1], 1) := by
  unfold Machine.request?
  cases op <;> cases which <;> rfl

theorem arithmetic_calls (inside : m.running < m.threads.size) {operator : Arithmetic}
    (which : op.arithmetic? = some operator) (performs : perform F.closure op a b = Exec.arithmetic operator)
    (asked : m.request? op a b = some (callee, args, want)) :
    Calls m F rest op a b callee args want := by
  obtain ⟨others, found, rfl, rfl⟩ := of_asked ((request?_arithmetic which a b).symm.trans asked)
  left
  rw [performs, arithmetic_apply inside, touched_arithmetic which]
  split
  · rename_i lhs rhs
    rw [lhs, rhs] at others
    exact absurd ⟨rfl, rfl⟩ others
  · exact callMetamethod_of_handler (m := m.drop 2) found

/-- A comparison that its test decides. -/
theorem compare_of_test (inside : m.running < m.threads.size) {test : Value → Value → Option Bool}
    {result : Bool} (known : test (m.top 2) (m.top 1) = some result) (event : String) :
    Exec.compare test event m = .ok () ((m.drop 2).push (.boolean result)) := by
  rw [Exec.compare, pop_pop inside, known]
  rfl

/-- A comparison that nothing decides. -/
theorem compare_refused (inside : m.running < m.threads.size) {test : Value → Value → Option Bool}
    {event : String} (unknown : test (m.top 2) (m.top 1) = none)
    (missing : m.handler? event (m.top 2) (m.top 1) = none) :
    ∃ fault, Exec.compare test event m = .error fault (m.drop 2) := by
  rw [Exec.compare, pop_pop inside, unknown]
  simp only [bind_apply, get_apply]
  rcases Poised.callMetamethod_cases event (m.top 2) (m.top 1)
      (.compare (m.top 2).typeName (m.top 1).typeName) (m.drop 2) with
    ⟨fault, failed, -⟩ | ⟨handler, found, -⟩
  · exact ⟨fault, by rw [failed]⟩
  · cases missing.symm.trans found

/-- A comparison that a handler decides calls it and judges its result. -/
theorem compare_of_handler (inside : m.running < m.threads.size) (frames : m.current.frames = F :: rest)
    {test : Value → Value → Option Bool} {event : String} {handler : Value}
    (unknown : test (m.top 2) (m.top 1) = none)
    (found : m.handler? event (m.top 2) (m.top 1) = some handler) :
    Exec.compare test event m = (do
      Exec.call handler [m.top 2, m.top 1] 1
      judge m.running (rest.length + 1)) (m.drop 2) := by
  have count : (m.drop 2).current.frames.length = rest.length + 1 := by
    rw [Machine.current_drop inside]
    simp [frames]
  rw [Exec.compare, pop_pop inside, unknown]
  simp only [bind_apply, get_apply, count, callMetamethod_of_handler (m := m.drop 2) found]
  rfl

/-- A comparison that its test does not decide. -/
theorem comparison_calls (inside : m.running < m.threads.size)
    (frames : m.current.frames = F :: rest) (touched : op.touched a b = 2)
    {test : Value → Value → Option Bool} {event : String}
    (performs : perform F.closure op a b = Exec.compare test event)
    (asked : (if (test (m.top 2) (m.top 1)).isSome then none
      else (m.handler? event (m.top 2) (m.top 1)).map (·, [m.top 2, m.top 1], 1)) =
        some (callee, args, want)) : Calls m F rest op a b callee args want := by
  obtain ⟨undecided, found, rfl, rfl⟩ := of_asked asked
  refine Or.inr ⟨rfl, ?_⟩
  rw [performs, touched]
  exact compare_of_handler inside frames (Option.not_isSome_iff_eq_none.1 undecided) found

theorem len_calls (asked : m.request? .len a b = some (callee, args, want)) :
    Calls m F rest .len a b callee args want := by
  obtain ⟨handler, found, same⟩ := Option.map_eq_some_iff.1 asked
  cases same
  left
  rw [perform, length_apply]
  simp only [Machine.handler?] at found
  cases looked : m.metamethod (m.top 1) "__len" with
  | error fault =>
    rw [looked] at found
    cases found
  | ok first =>
    simp only [looked] at found ⊢
    by_cases missing : first.isNil = true
    · simp [missing] at found
    · simp only [if_neg missing] at found ⊢
      cases found
      rfl

/-- An instruction that asks for a call takes its operands and makes it. -/
theorem calls_of_request (inside : m.running < m.threads.size)
    (frames : m.current.frames = F :: rest) (asked : m.request? op a b = some (callee, args, want)) :
    Calls m F rest op a b callee args want := by
  cases op with
  | add | sub | mul | div | mod | pow => exact arithmetic_calls inside rfl rfl asked
  | call =>
    cases asked
    left
    have callee : (m.drop a).top 1 = m.top (a + 1) := by
      rw [show 1 = 0 + 1 from rfl, Machine.top_drop inside, Nat.add_comm 1 a]
    simp only [perform, bind_apply, popSpread_eq, pop_apply, Machine.drop_drop, callee]
    rfl
  | neg =>
    obtain ⟨other, found, rfl, rfl⟩ := of_asked asked
    left
    rw [perform, negate_apply, Option.not_isSome_iff_eq_none.1 other]
    exact callMetamethod_of_handler (m := m.drop 1) found
  | concat =>
    obtain ⟨other, found, rfl, rfl⟩ := of_asked asked
    left
    rw [perform, concat_apply inside, Option.not_isSome_iff_eq_none.1 other]
    exact callMetamethod_of_handler (m := m.drop 2) found
  | len => exact len_calls asked
  | less => exact comparison_calls inside frames rfl rfl asked
  | lessEq => exact comparison_calls inside frames rfl rfl asked
  | _ => cases asked

/-- What an instruction calls leaves as many slots as the static account says, and then the next one is due. -/
theorem slots_of_request (asked : m.request? op a b = some (callee, args, want)) :
    (slots want : Int) = op.touched a b + Instruction.stackEffect op a b ∧
      Instruction.closedEffect op a = 0 ∧ op.continues = true := by
  cases op with
  | call =>
    cases asked
    simp only [slots, Opcode.touched, Opcode.operands, Instruction.stackEffect]
    refine ⟨?_, rfl, rfl⟩
    split <;> omega
  | len =>
    obtain ⟨_, -, same⟩ := Option.map_eq_some_iff.1 asked
    cases same
    exact ⟨rfl, rfl, rfl⟩
  | neg | concat | less | lessEq =>
    obtain ⟨-, -, -, rfl⟩ := of_asked asked
    exact ⟨rfl, rfl, rfl⟩
  | add | sub | mul | div | mod | pow =>
    obtain ⟨-, -, -, rfl⟩ := of_asked ((request?_arithmetic rfl a b).symm.trans asked)
    exact ⟨rfl, rfl, rfl⟩
  | _ => cases asked

end Machine

end ScriptEngine
