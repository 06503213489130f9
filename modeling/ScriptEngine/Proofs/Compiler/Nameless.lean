import ScriptEngine.Compiler
import ScriptEngine.Proofs.Verifier.Assignment

/-!
# Units apart from their names

A unit's display name is for diagnostics only. `CodeUnit.nameless` erases it in a unit and in all units
nested in it. Building and verifying units give the same whatever the names are, and errors differ in
the names they report only.
-/

namespace ScriptEngine

mutual
/-- A unit without its display name and those of the units nested in it. -/
def CodeUnit.nameless : CodeUnit → CodeUnit
  | ⟨id, _, source, paramCount, isVararg, code, lines, constants, children⟩ =>
    ⟨id, "", source, paramCount, isVararg, code, lines, constants, allNameless children⟩

def CodeUnit.allNameless : List CodeUnit → List CodeUnit
  | [] => []
  | u :: rest => u.nameless :: allNameless rest
end

def Verifier.Failure.nameless (f : Verifier.Failure) : Verifier.Failure := { f with unit := "" }

/-- An error without the name of the unit it is about. -/
def CompileError.nameless : CompileError → CompileError
  | .tooLarge _ instructions => .tooLarge "" instructions
  | .unresolvedLabel _ => .unresolvedLabel ""
  | .unbalanced ins _ => .unbalanced ins ""
  | .verification failure => .verification failure.nameless
  | e => e

/-- What a compilation gives, apart from names. -/
def Compiler.nameless (outcome : Except CompileError CodeUnit) : Except CompileError CodeUnit :=
  (outcome.map CodeUnit.nameless).mapError CompileError.nameless

namespace CodeUnit

theorem allNameless_eq_map (units : List CodeUnit) : allNameless units = units.map nameless := by
  induction units with
  | nil => rfl
  | cons u rest ih => rw [allNameless, ih, List.map_cons]

@[simp] theorem nameless_id (u : CodeUnit) : u.nameless.id = u.id := by
  cases u
  rfl

@[simp] theorem nameless_code (u : CodeUnit) : u.nameless.code = u.code := by
  cases u
  rfl

@[simp] theorem nameless_constants (u : CodeUnit) : u.nameless.constants = u.constants := by
  cases u
  rfl

@[simp] theorem nameless_name (u : CodeUnit) : u.nameless.name = "" := by
  cases u
  rfl

theorem nameless_children (u : CodeUnit) : u.nameless.children = u.children.map nameless := by
  cases u
  exact allNameless_eq_map _

theorem nameless_child? (u : CodeUnit) (id : Nat) :
    u.nameless.child? id = (u.child? id).map nameless := by
  have same : ((·.id == id) ∘ nameless : CodeUnit → Bool) = (·.id == id) := by
    funext v
    simp
  rw [child?, nameless_children, List.find?_map, same]
  rfl

mutual
theorem walk_nameless : ∀ u : CodeUnit, u.nameless.walk = u.walk.map nameless
  | ⟨id, name, source, paramCount, isVararg, code, lines, constants, children⟩ => by
    rw [nameless, walk, walk, walkAll_nameless children, List.map_cons, nameless]

theorem walkAll_nameless : ∀ units : List CodeUnit,
    walkAll (allNameless units) = (walkAll units).map nameless
  | [] => rfl
  | u :: rest => by
    rw [allNameless, walkAll, walkAll, walk_nameless u, walkAll_nameless rest, List.map_append]
end

end CodeUnit

/-! ## The verifier -/

namespace Verifier

theorem operandFlaw?_nameless (u : CodeUnit) (op : Opcode) (a : Nat) (depth : Int) :
    operandFlaw? u.nameless op a depth = operandFlaw? u op a depth := by
  cases op <;> simp [operandFlaw?, CodeUnit.nameless_child?]

theorem checkInstruction_nameless (u : CodeUnit) (ins : Instruction) (d : Depths) :
    checkInstruction u.nameless ins d = checkInstruction u ins d := by
  simp only [checkInstruction, operandFlaw?_nameless]

theorem explore_nameless (u : CodeUnit) (record : Record) (work : List (Nat × Depths)) :
    explore u.nameless record work = (explore u record work).mapError Failure.nameless := by
  fun_induction explore u record work with
  | case1 record =>
    rw [explore]
    rfl
  | case2 record ip rest ins earlier seen code ih =>
    rw [explore, CodeUnit.nameless_code]
    split <;> simp_all
  | case3 record ip d rest ins earlier seen code differ =>
    rw [explore, CodeUnit.nameless_code]
    split <;> simp_all [Except.mapError, Failure.nameless]
  | case4 record ip d rest ins fresh code flaw check =>
    rw [explore, CodeUnit.nameless_code]
    split <;> simp_all [Except.mapError, Failure.nameless, checkInstruction_nameless]
  | case5 record ip d rest ins fresh code op after check _ ih =>
    rw [explore, CodeUnit.nameless_code]
    split <;> simp_all [checkInstruction_nameless]
  | case6 record ip d rest seen fresh =>
    rw [explore, CodeUnit.nameless_code]
    split <;> simp_all [Except.mapError, Failure.nameless]

theorem depths_nameless (u : CodeUnit) : depths u.nameless = (depths u).mapError Failure.nameless := by
  rw [depths, depths, CodeUnit.nameless_code, explore_nameless]

theorem verify_nameless (u : CodeUnit) :
    verify u.nameless = (verify u).mapError Failure.nameless := by
  rw [verify, verify, CodeUnit.walk_nameless]
  induction u.walk with
  | nil => rfl
  | cons v rest ih =>
    rw [List.map_cons, List.forM, List.forM, ih, depths_nameless]
    cases depths v <;> rfl

end Verifier

/-! ## The builder -/

namespace Builder

/-- A builder without the names of the units nested in what it builds. -/
def nameless (b : Builder) : Builder := { b with children := b.children.map CodeUnit.nameless }

theorem insertChild_nameless (u : CodeUnit) (units : List CodeUnit) :
    (insertChild u units).map CodeUnit.nameless =
      insertChild u.nameless (units.map CodeUnit.nameless) := by
  induction units with
  | nil => rfl
  | cons v rest ih =>
    simp only [insertChild, List.map_cons, CodeUnit.nameless_id]
    split
    · rfl
    · split
      · rfl
      · rw [List.map_cons, ih]

theorem addChild_nameless (b : Builder) (u : CodeUnit) :
    (b.addChild u).nameless = b.nameless.addChild u.nameless := by
  simp only [nameless, addChild, insertChild_nameless]

theorem addConstant_nameless (b : Builder) (v : Value) :
    b.nameless.addConstant v = (b.addConstant v).map fun r => (r.1, r.2.nameless) := by
  unfold addConstant
  rw [show b.nameless.constants = b.constants from rfl]
  split
  · rfl
  · split <;> rfl

/-- Where a jump leads does not depend on names. -/
theorem resolve_nameless (b : Builder) (name : String) (code : Array Instruction) (jump : Nat × Nat) :
    b.nameless.resolve "" code jump = (b.resolve name code jump).mapError CompileError.nameless := by
  simp only [resolve, show b.nameless.labelAddress? jump.2 = b.labelAddress? jump.2 from rfl]
  split <;> rfl

theorem finish_nameless (b : Builder) (id : Nat) (name source : String) :
    b.nameless.finish id "" source = Compiler.nameless (b.finish id name source) := by
  have resolved : ∀ (jumps : List (Nat × Nat)) (code : Array Instruction),
      jumps.foldlM (b.nameless.resolve "") code =
        (jumps.foldlM (b.resolve name) code).mapError CompileError.nameless := by
    intro jumps
    induction jumps with
    | nil => exact fun code => rfl
    | cons jump rest ih =>
      intro code
      simp only [List.foldlM_cons, resolve_nameless b name]
      cases b.resolve name code jump with
      | error e => rfl
      | ok code => exact ih code
  have pending : b.nameless.pending.foldlM (b.nameless.resolve "") b.nameless.code =
      (b.pending.foldlM (b.resolve name) b.code).mapError CompileError.nameless := by
    rw [← Array.foldlM_toList, ← Array.foldlM_toList]
    exact resolved b.pending.toList b.code
  unfold finish
  rw [show b.nameless.code.size = b.code.size from rfl, pending]
  split
  · rfl
  · cases b.pending.foldlM (b.resolve name) b.code with
    | error e => rfl
    | ok code =>
      have children : b.nameless.children.reverse = CodeUnit.allNameless b.children.reverse := by
        rw [CodeUnit.allNameless_eq_map, List.map_reverse]
        rfl
      simp only [Except.mapError, Bind.bind, Except.bind, children]
      rfl

end Builder

end ScriptEngine
