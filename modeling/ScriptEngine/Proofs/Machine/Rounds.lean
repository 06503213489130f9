import ScriptEngine.Proofs.Machine.Control
import ScriptEngine.Proofs.Number.Whole

/-!
# The rounds of a numeric loop

Control goes `Rounds` a numeric loop: from the guard through the body back to the guard, as often as the guard lets
it, and out. If the control slots hold integers and every iteration comes to the end of the body, then there are as
many iterations as `trips` says, each with a new variable (`Fresh`) that starts with the next value
(`Looping.rounds`). What the body does to its variable or to other slots does not matter: it is a region above the
control slots, so these are found as they were (`Looping.body`).
-/

set_option linter.dupNamespace false

namespace ScriptEngine

open Compiler Number

/-! ## Counting -/

/-- How often a loop that counts from `start` by `step` does not yet find itself past `limit`. -/
def trips (start limit step : Int) : Nat := ((limit - start).fdiv step + 1).toNat

section

variable {start limit step : Int}

theorem fdiv_nonneg_iff (some' : step ≠ 0) {n : Int} : 0 ≤ n.fdiv step ↔ 0 < step ∧ 0 ≤ n ∨ step < 0 ∧ n ≤ 0 := by
  rcases lt_or_gt_of_ne some' with negative | positive
  · rw [← Int.neg_fdiv_neg, Int.fdiv_eq_ediv_of_nonneg _ (by omega), Int.ediv_nonneg_iff_of_pos (by omega)]
    omega
  · rw [Int.fdiv_eq_ediv_of_nonneg _ positive.le, Int.ediv_nonneg_iff_of_pos positive]
    omega

/-- There is a first trip if the start is not past the limit. -/
theorem trips_pos_iff (some' : step ≠ 0) :
    0 < trips start limit step ↔ 0 < step ∧ start ≤ limit ∨ step < 0 ∧ limit ≤ start := by
  have nonneg := fdiv_nonneg_iff some' (n := limit - start)
  unfold trips
  omega

/-- The trips after the first one. -/
theorem trips_next (some' : step ≠ 0) : trips (start + step) limit step = trips start limit step - 1 := by
  have same : (limit - (start + step)).fdiv step = (limit - start).fdiv step - 1 := by
    rw [show limit - (start + step) = (limit - start) + (-1) * step by ring, Int.add_mul_fdiv_right _ _ some']
    omega
  unfold trips
  omega

end

namespace Value

theorem and_boolean (p q : Bool) : (if (boolean p).isTruthy then boolean q else boolean p) = boolean (p && q) := by
  cases p <;> rfl

theorem or_boolean (p q : Bool) : (if (boolean p).isTruthy then boolean p else boolean q) = boolean (p || q) := by
  cases p <;> rfl

end Value

namespace Machine

variable {m m₁ m' : Machine}

/-- Every slot was there before, with its cell, or has a new cell. -/
structure Renews (m m' : Machine) : Prop where
  cells : m.store.cells.size ≤ m'.store.cells.size
  slots : ∀ id i x, m'.Slot id i x → m.Slot id i x ∨ m.store.cells.size ≤ x

theorem Renews.refl (m : Machine) : m.Renews m := ⟨Nat.le_refl _, fun _ _ _ => Or.inl⟩

theorem Renews.trans (first : m.Renews m₁) (second : m₁.Renews m') : m.Renews m' := by
  refine ⟨first.cells.trans second.cells, fun id i x slot => ?_⟩
  rcases second.slots id i x slot with slot | new
  · exact first.slots id i x slot
  · exact Or.inr (first.cells.trans new)

theorem Ordered.renews (h : m.Ordered Thread.Active) (separate : m.Separate) (moves : m.Moves m') : m.Renews m' :=
  have draws := h.moves_draws separate moves
  ⟨draws.cells, draws.slots⟩

theorem Moves.unique (h : m.Moves m₁) (h' : m.Moves m') : m₁ = m' := by
  cases h with
  | step step =>
    cases h' with
    | step step' =>
      rw [step] at step'
      cases step'
      rfl
    | fault step' =>
      rw [step] at step'
      cases step'
  | fault step =>
    cases h' with
    | step step' =>
      rw [step] at step'
      cases step'
    | fault step' =>
      rw [step] at step'
      cases step'
      rfl

end Machine

namespace CodeUnit

/-- The body keeps to a ground that hides the control slots. -/
theorem NumericLoop.region {u : CodeUnit} {C : Chart} {enclosing : List (String × Nat)} {f last slots cells n d : Nat}
    (loop : u.NumericLoop C f last slots cells)
    (suits : C.Suits enclosing n u) (deep : d + 3 = (C f).scope.depth) : Region u C (holding d 3) (f + 20) last := by
  refine ⟨fun ip op a b _ _ holds => ⟨enclosing, suits.fits ip op a b holds⟩, fun ip low high => ?_,
    fun ip op a b low high holds pops => ?_, fun ip low high h mem => ?_, ?_⟩
  · refine (loop.deep ip low high).imp_left fun above => ?_
    show d + 3 ≤ _
    omega
  · rcases loop.deep ip low high with above | ⟨a', b', jump⟩
    · have room := (suits.fits ip op a b holds).room pops _ (loop.hides ip low high 1 (by omega) (by omega)) (by omega)
      refine Or.inr ?_
      show d + 3 + _ ≤ _
      omega
    · obtain ⟨rfl, -, -⟩ := jump.eq holds
      exact Or.inl rfl
  · obtain ⟨k, few, rfl⟩ := List.mem_map.1 mem
    have few := List.mem_range.1 few
    have hidden := loop.hides ip low high (3 - k) (by omega) (by omega)
    rwa [show (C f).scope.depth - (3 - k) = d + k by omega] at hidden
  · show d + 3 ≤ _
    rw [loop.depth]
    omega

end CodeUnit

namespace Activation

variable {A : Activation} {m₀ m m₁ m' p p' b b' e : Machine} {d c i j ip f last : Nat} {vs l : List Value}
  {ps : List (Machine × Machine)}

theorem Crosses.renews (h : A.Crosses i j m m') (ordered : m.Ordered Thread.Active) (separate : m.Separate) :
    m.Renews m' ∧ m'.Ordered Thread.Active ∧ m'.Separate := by
  induction h with
  | here => exact ⟨.refl _, ordered, separate⟩
  | move _ _ firm moves _ ih =>
    obtain ⟨renews, last⟩ := ih (Machine.moves_ordered ordered firm moves) (ordered.moves_draws separate moves).separate
    exact ⟨(ordered.renews separate moves).trans renews, last⟩

/-- One more instruction. -/
theorem Crosses.next (n : Nat) (h : A.Crosses i (i + n) m m₁) (h' : A.Crosses (i + n) (i + n + 1) m₁ m') :
    A.Crosses i (i + n + 1) m m' := h.trans h' (Nat.le_add_right i n) (Nat.le_succ _)

/-- Code is crossed in one way only. -/
theorem Crosses.unique (h : A.Crosses i j m m₁) (h' : A.Crosses i j m m') : m₁ = m' := by
  induction h with
  | here there =>
    cases h' with
    | here => rfl
    | move _ away => exact absurd there away
  | move _ away _ moves _ ih =>
    cases h' with
    | here there => exact absurd there away
    | move _ _ _ moves' rest => exact ih (moves.unique moves' ▸ rest)

/-! ## Going round -/

/-- From the guard into the body of the loop whose `forPrep` is at `f`. -/
def Enters (A : Activation) (f : Nat) (p b : Machine) : Prop :=
  ∃ c c', A.Crosses (f + 1) (f + 17) p c ∧ ¬c.Slips ∧ c.Moves c' ∧ A.Crosses (f + 18) (f + 20) c' b

/-- From the guard past the end of the loop. -/
def Leaves (A : Activation) (f last : Nat) (p m' : Machine) : Prop :=
  ∃ c c', A.Crosses (f + 1) (f + 17) p c ∧ ¬c.Slips ∧ c.Moves c' ∧ A.Crosses (last + 7) (last + 8) c' m'

/-- From the end of the body back to the guard. -/
def Returns (A : Activation) (f last : Nat) (e p : Machine) : Prop :=
  ∃ c, A.Crosses last (last + 6) e c ∧ ¬c.Slips ∧ c.Moves p ∧ A.At p (f + 1)

/-- Control goes from the guard round the loop, whose body is the code from `f + 20` to `last`, and past its end.
Each iteration is listed with the machines at the guard and at the beginning of the body. -/
inductive Rounds (A : Activation) (f last : Nat) : Machine → List (Machine × Machine) → Machine → Prop where
  | leaves {p m' : Machine} (leaves : A.Leaves f last p m') : Rounds A f last p [] m'
  | round {p b e p' m' : Machine} {ps : List (Machine × Machine)} (enters : A.Enters f p b)
      (body : A.Crosses (f + 20) last b e) (returns : A.Returns f last e p') (rest : Rounds A f last p' ps m') :
      Rounds A f last p ((p, b) :: ps) m'

/-- An iteration of the loop begins at `b` if control comes to the guard at `p`. -/
inductive Starts (A : Activation) (f last : Nat) (p : Machine) : Machine → Prop where
  | first {b : Machine} (enters : A.Enters f p b) : Starts A f last p b
  | next {b e p' b' : Machine} (starts : Starts A f last p b) (body : A.Crosses (f + 20) last b e)
      (returns : A.Returns f last e p') (enters : A.Enters f p' b') : Starts A f last p b'

/-- The variable of an iteration, in the topmost slot and in the last place of the closure list, has a cell that was
not there at the guard, and the value `z`. -/
def Fresh (p b : Machine) (z : Int) : Prop :=
  ∃ x y, b.current.stack.back? = some x ∧ b.current.captures.back? = some x ∧ p.store.cells.size ≤ x ∧
    b.store.cell x = .number y ∧ IsInt y z

theorem Enters.unique (h : A.Enters f p b) (h' : A.Enters f p b') : b = b' := by
  obtain ⟨c, k, guard, -, moves, into⟩ := h
  obtain ⟨c', k', guard', -, moves', into'⟩ := h'
  obtain rfl := guard.unique guard'
  obtain rfl := moves.unique moves'
  exact into.unique into'

theorem Leaves.unique (h : A.Leaves f last p m) (h' : A.Leaves f last p m') : m = m' := by
  obtain ⟨c, k, guard, -, moves, out⟩ := h
  obtain ⟨c', k', guard', -, moves', out'⟩ := h'
  obtain rfl := guard.unique guard'
  obtain rfl := moves.unique moves'
  exact out.unique out'

theorem Returns.unique (h : A.Returns f last e p) (h' : A.Returns f last e p') : p = p' := by
  obtain ⟨c, crosses, -, moves, -⟩ := h
  obtain ⟨c', crosses', -, moves', -⟩ := h'
  obtain rfl := crosses.unique crosses'
  exact moves.unique moves'

/-- The guard lets control into the body or past it. -/
theorem Enters.not_leaves (h : A.Enters f p b) (deep : f + 20 ≤ last) : ¬A.Leaves f last p m' := by
  rintro ⟨c', k', guard', -, moves', out⟩
  obtain ⟨c, k, guard, -, moves, into⟩ := h
  obtain rfl := guard.unique guard'
  obtain rfl := moves.unique moves'
  obtain ⟨inner, ip, -, high, frames⟩ := into.within (by omega)
  obtain ⟨inner', ip', low, -, frames'⟩ := out.within (by omega)
  obtain ⟨-, rfl⟩ := place_unique (frames.symm.trans frames')
  omega

/-- There is one way round the loop. -/
theorem Rounds.unique (h : A.Rounds f last p ps m) (deep : f + 20 ≤ last) {ps' : List (Machine × Machine)}
    (h' : A.Rounds f last p ps' m') : ps = ps' ∧ m = m' := by
  induction h generalizing ps' with
  | leaves leaves =>
    cases h' with
    | leaves leaves' => exact ⟨rfl, leaves.unique leaves'⟩
    | round enters => exact absurd leaves (enters.not_leaves deep)
  | round enters body returns _ ih =>
    cases h' with
    | leaves leaves => exact absurd leaves (enters.not_leaves deep)
    | round enters' body' returns' rest =>
      obtain rfl := enters.unique enters'
      obtain rfl := body.unique body'
      obtain rfl := returns.unique returns'
      obtain ⟨rfl, rfl⟩ := ih rest
      exact ⟨rfl, rfl⟩

/-- The iterations after the first one. -/
theorem Starts.after (h : A.Starts f last p' m) (enters : A.Enters f p b) (body : A.Crosses (f + 20) last b e)
    (returns : A.Returns f last e p') : A.Starts f last p m := by
  induction h with
  | first enters' => exact .next (.first enters) body returns enters'
  | next _ body' returns' enters' ih => exact .next ih body' returns' enters'

/-! ## The guard -/

namespace Stage

variable {x y z : Float} {q r t : Int}

/-- A constant that equals zero is pushed. -/
theorem loadZero (stage : A.Stage m₀ d c m ip vs) (zero : A.frame.closure.unit.PushesZero ip) :
    ∃ m' w, A.Crosses ip (ip + 1) m m' ∧ A.Stage m₀ d c m' (ip + 1) (vs ++ [Value.number w]) ∧ IsInt w 0 := by
  obtain ⟨n, v, holds, found, equal⟩ := zero
  obtain ⟨m', crosses, next⟩ := stage.loadK holds found
  rcases equal with equal | rfl
  · cases v with
    | number w => exact ⟨m', w, crosses, next, isInt_of_beq_zero equal⟩
    | _ => cases equal
  · exact ⟨m', 0.0, crosses, next, isInt_zero⟩

theorem lessInt (stage : A.Stage m₀ d c m ip (l ++ [Value.number x, Value.number y]))
    (holds : A.frame.closure.unit.Holds ip .less 0 0) (hx : IsInt x q) (hy : IsInt y r) :
    ∃ m', A.Crosses ip (ip + 1) m m' ∧ A.Stage m₀ d c m' (ip + 1) (l ++ [Value.boolean (decide (q < r))]) :=
  stage.less holds (congrArg some (decide_eq_decide.2 (hx.lt_iff hy)))

theorem lessEqInt (stage : A.Stage m₀ d c m ip (l ++ [Value.number x, Value.number y]))
    (holds : A.frame.closure.unit.Holds ip .lessEq 0 0) (hx : IsInt x q) (hy : IsInt y r) :
    ∃ m', A.Crosses ip (ip + 1) m m' ∧ A.Stage m₀ d c m' (ip + 1) (l ++ [Value.boolean (decide (q ≤ r))]) :=
  stage.lessEq holds (congrArg some (decide_eq_decide.2 (hx.le_iff hy)))

/-- The guard asks whether the variable is not past the limit, in the direction of the step. -/
theorem guard (stage : A.Stage m₀ d c m ip [.number x, .number y, .number z])
    (guard : A.frame.closure.unit.Guard ip) (hx : IsInt x q) (hy : IsInt y r) (hz : IsInt z t) :
    ∃ m', A.Crosses ip (ip + 15) m m' ∧ A.Stage m₀ d c m' (ip + 15)
      [.number x, .number y, .number z, .boolean (decide (0 < t ∧ q ≤ r ∨ t < 0 ∧ r ≤ q))] := by
  -- upwards
  obtain ⟨m₁, w, crosses₁, s₁, zero⟩ := stage.loadZero guard.zero
  obtain ⟨m₂, crosses₂, s₂⟩ := s₁.getStack guard.step rfl (by simp)
  obtain ⟨m₃, crosses₃, s₃⟩ := lessInt (l := [.number x, .number y, .number z]) s₂ guard.up zero hz
  obtain ⟨m₄, crosses₄, s₄⟩ := s₃.getStack guard.current rfl (by simp)
  obtain ⟨m₅, crosses₅, s₅⟩ := s₄.getStack guard.limit rfl (by simp)
  obtain ⟨m₆, crosses₆, s₆⟩ := lessEqInt (l := [.number x, .number y, .number z, .boolean _]) s₅ guard.below hx hy
  obtain ⟨m₇, crosses₇, s₇⟩ := and (l := [.number x, .number y, .number z]) s₆ guard.rising
  -- downwards
  obtain ⟨m₈, crosses₈, s₈⟩ := s₇.getStack guard.step' rfl (by simp)
  obtain ⟨m₉, w', crosses₉, s₉, zero'⟩ := s₈.loadZero guard.zero'
  obtain ⟨m₁₀, crosses₁₀, s₁₀⟩ := lessInt (l := [.number x, .number y, .number z, _]) s₉ guard.down hz zero'
  obtain ⟨m₁₁, crosses₁₁, s₁₁⟩ := s₁₀.getStack guard.limit' rfl (by simp)
  obtain ⟨m₁₂, crosses₁₂, s₁₂⟩ := s₁₁.getStack guard.current' rfl (by simp)
  obtain ⟨m₁₃, crosses₁₃, s₁₃⟩ := lessEqInt (l := [.number x, .number y, .number z, _, .boolean _]) s₁₂ guard.above hy hx
  obtain ⟨m₁₄, crosses₁₄, s₁₄⟩ := and (l := [.number x, .number y, .number z, _]) s₁₃ guard.falling
  obtain ⟨m₁₅, crosses₁₅, s₁₅⟩ := or (l := [.number x, .number y, .number z]) s₁₄ guard.either
  have up : A.Crosses ip (ip + 7) m m₇ := (((((crosses₁.next 1 crosses₂).next 2 crosses₃).next 3 crosses₄).next 4
    crosses₅).next 5 crosses₆).next 6 crosses₇
  have down : A.Crosses ip (ip + 14) m m₁₄ := ((((((up.next 7 crosses₈).next 8 crosses₉).next 9 crosses₁₀).next 10
    crosses₁₁).next 11 crosses₁₂).next 12 crosses₁₃).next 13 crosses₁₄
  rw [Value.and_boolean, Value.and_boolean, Value.or_boolean, ← Bool.decide_and, ← Bool.decide_and,
    ← Bool.decide_or] at s₁₅
  exact ⟨m₁₅, down.next 14 crosses₁₅, s₁₅⟩

end Stage

/-! ## One round -/

section

variable {C : Chart} {enclosing : List (String × Nat)} {slots cells : Nat} {x y z : Float} {q r t : Int}
/-- The guard and the jump out of the loop. -/
theorem Stage.test (stage : A.Stage m₀ d c p (f + 1) [.number x, .number y, .number z])
    (loop : A.frame.closure.unit.NumericLoop C f last slots cells) (hx : IsInt x q) (hy : IsInt y r) (hz : IsInt z t)
    (some' : t ≠ 0) : ∃ k k', A.Crosses (f + 1) (f + 17) p k ∧ ¬k.Slips ∧ k.Moves k' ∧
      A.Stage m₀ d c k' (if 0 < trips q r t then f + 18 else last + 7) [.number x, .number y, .number z] := by
  obtain ⟨m₁, crosses, s₁⟩ := stage.guard loop.guard hx hy hz
  obtain ⟨k, crosses', s₂⟩ := Stage.not (l := [.number x, .number y, .number z]) s₁ loop.ends
  obtain ⟨k', moves, firm, s₃⟩ := s₂.jmpTrue loop.leave
  refine ⟨k, k', crosses.next 15 crosses', firm, moves, ?_⟩
  by_cases more : 0 < t ∧ q ≤ r ∨ t < 0 ∧ r ≤ q
  · rw [if_pos ((trips_pos_iff some').2 more)]
    rw [decide_eq_true more] at s₃
    exact s₃
  · rw [if_neg (fun positive => more ((trips_pos_iff some').1 positive))]
    rw [decide_eq_false more] at s₃
    exact s₃

/-- The guard lets control into the body, with a new variable. -/
theorem Stage.enter (stage : A.Stage m₀ d c p (f + 1) [.number x, .number y, .number z])
    (loop : A.frame.closure.unit.NumericLoop C f last slots cells) (hx : IsInt x q) (hy : IsInt y r) (hz : IsInt z t)
    (some' : t ≠ 0) (more : 0 < trips q r t) : ∃ b, A.Enters f p b ∧ Fresh p b q ∧
      A.Bed m₀ d b (f + 20) [.number x, .number y, .number z] ∧ b.current.stack.size = A.frame.base + d + 4 ∧
      b.current.captures.size = A.frame.captureBase + c + 1 := by
  obtain ⟨k, k', guard, firm, moves, s₁⟩ := stage.test loop hx hy hz some'
  rw [if_pos more] at s₁
  obtain ⟨k₁, reads, s₂⟩ := s₁.getStack loop.read rfl (by simp)
  obtain ⟨b, w, binds, bed, stack, store, captures, slot, value⟩ := s₂.bind loop.bind
  have size := s₂.size
  obtain ⟨renews, ordered, separate⟩ := guard.renews stage.ordered stage.separate
  have renews := (renews.trans (ordered.renews separate moves)).trans (reads.renews s₁.ordered s₁.separate).1
  refine ⟨b, ⟨k, k', guard, firm, moves, reads.next 1 binds⟩, ⟨w, x, ?_, ?_, ?_, ?_, hx⟩, bed, ?_, ?_⟩
  · rw [stack, Array.back?, size]
    rw [Machine.Slot, s₂.thread] at slot
    exact slot
  · rw [captures, Array.back?_push]
  · rcases renews.slots _ _ _ slot with old | new
    · have inside := old.lt
      rw [stage.thread, stage.size] at inside
      exact absurd inside (Nat.lt_irrefl _)
    · exact new
  · rw [store]
    exact value
  · rw [stack, size]
    rfl
  · rw [captures, Array.size_push, s₂.captures]
/-- The guard lets control past the loop. -/
theorem Stage.leave (stage : A.Stage m₀ d c p (f + 1) [.number x, .number y, .number z])
    (loop : A.frame.closure.unit.NumericLoop C f last slots cells) (hx : IsInt x q) (hy : IsInt y r) (hz : IsInt z t)
    (some' : t ≠ 0) (none' : trips q r t = 0) :
    ∃ m', A.Leaves f last p m' ∧ A.Stage m₀ d c m' (last + 8) [] := by
  obtain ⟨k, k', guard, firm, moves, s₁⟩ := stage.test loop hx hy hz some'
  rw [if_neg (by omega)] at s₁
  have full : A.Stage m₀ d c k' (last + 7) ([] ++ [Value.number x, Value.number y, Value.number z]) := s₁
  obtain ⟨m', drops, s₂⟩ := full.popStack loop.done
  exact ⟨m', ⟨k, k', guard, firm, moves, drops⟩, s₂⟩

/-- Whatever the body does, it leaves the control slots alone, and has slots and closed cells of its own at the end. -/
theorem Bed.body (bed : A.Bed m₀ d b (f + 20) vs) (loop : A.frame.closure.unit.NumericLoop C f last slots cells)
    (charts : A.frame.closure.Charts enclosing C) (deep : d + 3 = (C f).scope.depth) (three : vs.length = 3)
    (size : b.current.stack.size = A.frame.base + d + 4) (body : A.Crosses (f + 20) last b e) :
    A.Bed m₀ d e last vs ∧ e.current.stack.size = A.frame.base + d + 3 + slots ∧
      e.current.captures.size = A.frame.captureBase + (C f).scope.closed + cells := by
  have follows : A.frame.closure.Follows C := ⟨enclosing, charts.suits⟩
  have region := loop.region charts.suits deep
  have passes := (charts.suits.fits _ _ _ _ loop.bind).passes (f + 20) (Verifier.mem_successors.2 (Or.inl ⟨rfl, rfl⟩))
  have depth := passes.depth
  simp only [Instruction.stackEffect] at depth
  have upright := bed.ordered.current.2
  simp only [bed.there.frames] at upright
  obtain ⟨full, closed⟩ := upright.rests.charted follows
  simp only [at'] at full closed
  -- the slot of the variable is that of a local
  have held := bed.there.held (C := C) (g := holding d 3) bed.ordered full closed (by show d + 3 ≤ _; omega)
    fun k low high => (passes.binds rfl).2 k (by change d + 3 ≤ k at low; omega) (by omega)
  obtain ⟨held, ordered, separate⟩ := body.held region bed.ordered bed.separate loop.body held
  have there := body.at
  have upright := ordered.current.2
  simp only [there.frames] at upright
  obtain ⟨full, closed⟩ := upright.rests.charted follows
  simp only [at'] at full closed
  rw [loop.depth] at full
  rw [loop.closed] at closed
  have stack (k : Nat) (low : k < A.frame.base + d + 3) : e.current.stack[k]? = b.current.stack[k]? := by
    rw [← there.current, ← bed.thread]
    exact held.stack k (by show k < A.frame.base + (d + 3); omega)
  refine ⟨⟨ordered, separate, there, by omega, fun k low => ?_, fun k v found => ?_⟩, by omega, by omega⟩
  · rw [stack k (by omega)]
    exact bed.below k low
  · have inside := (List.getElem?_eq_some_iff.1 found).1
    obtain ⟨w, slot, alone, value⟩ := bed.values k v found
    have mem : d + k ∈ (holding d 3).hidden := List.mem_map.2 ⟨k, List.mem_range.2 (by omega), rfl⟩
    obtain ⟨alone', value'⟩ := held.hidden (d + k) mem w (by rwa [← Nat.add_assoc]) alone
    refine ⟨w, ?_, alone', value'.trans value⟩
    rw [Machine.Slot, there.current, stack _ (by omega), ← bed.thread]
    exact slot

/-- At the end of the body its slots are released, and the control slot counts on. -/
theorem Bed.back (bed : A.Bed m₀ d e last [.number x, .number y, .number z])
    (loop : A.frame.closure.unit.NumericLoop C f last slots cells)
    (size : e.current.stack.size = A.frame.base + d + 3 + slots)
    (captures : e.current.captures.size = A.frame.captureBase + c + cells) :
    ∃ p', A.Returns f last e p' ∧ A.Stage m₀ d c p' (f + 1) [.number (x + z), .number y, .number z] := by
  obtain ⟨m₁, crosses₁, bed₁, stack₁, captures₁, -⟩ := bed.popClosed loop.release
  obtain ⟨m₂, crosses₂, bed₂, size₂, captures₂, -⟩ := bed₁.popStack loop.drop (by
    rw [stack₁, size]
    exact Nat.le_refl _)
  have s₂ : A.Stage m₀ d c m₂ (last + 1 + 1) [.number x, .number y, .number z] := by
    refine ⟨bed₂, ?_, ?_⟩
    · rw [captures₂, captures₁, captures]
      omega
    · rw [size₂, stack₁, size]
      simp only [List.length_cons, List.length_nil]
      omega
  obtain ⟨m₃, crosses₃, s₃⟩ := s₂.getStack loop.current rfl (by simp)
  obtain ⟨m₄, crosses₄, s₄⟩ := s₃.getStack loop.step rfl (by simp)
  obtain ⟨m₅, crosses₅, s₅⟩ := Stage.add (l := [.number x, .number y, .number z]) s₄ loop.add
  obtain ⟨m₆, crosses₆, s₆⟩ := s₅.putStack loop.write (by omega) (by simp)
  obtain ⟨p', moves, firm, s₇⟩ := s₆.jmp loop.again
  have crosses : A.Crosses last (last + 6) e m₆ := ((((crosses₁.next 1 crosses₂).next 2 crosses₃).next 3 crosses₄).next 4
    crosses₅).next 5 crosses₆
  exact ⟨p', ⟨m₆, crosses, firm, moves, s₇.there⟩, s₇⟩

/-- If every iteration comes to the end of the body, control goes round as often as it should, and out. -/
theorem Stage.rounds (loop : A.frame.closure.unit.NumericLoop C f last slots cells)
    (charts : A.frame.closure.Charts enclosing C) (deep : d + 3 = (C f).scope.depth) (hy : IsInt y r) (hz : IsInt z t)
    (some' : t ≠ 0) (stage : A.Stage m₀ d (C f).scope.closed p (f + 1) [.number x, .number y, .number z])
    (hx : IsInt x q) (short : ∀ k : Nat, k ≤ trips q r t → (q + k * t).natAbs ≤ 2 ^ 53)
    (completes : ∀ b, A.Starts f last p b → ∃ e, A.Crosses (f + 20) last b e) :
    ∃ ps m', A.Rounds f last p ps m' ∧ ps.length = trips q r t ∧
      (∀ (k : Nat) p b, ps[k]? = some (p, b) → Fresh p b (q + k * t)) ∧
        A.Stage m₀ d (C f).scope.closed m' (last + 8) [] := by
  generalize count : trips q r t = n at short
  induction n generalizing p x q with
  | zero =>
    obtain ⟨m', leaves, next⟩ := stage.leave loop hx hy hz some' count
    exact ⟨[], m', .leaves leaves, rfl, by simp, next⟩
  | succ n ih =>
    obtain ⟨b, enters, fresh, bed, size, -⟩ := stage.enter loop hx hy hz some' (by omega)
    obtain ⟨e, body⟩ := completes b (.first enters)
    obtain ⟨bed, size, captures⟩ := bed.body loop charts deep rfl size body
    obtain ⟨p', returns, next⟩ := bed.back loop size captures
    have more : trips (q + t) r t = trips q r t - 1 := trips_next some'
    have sum : IsInt (x + z) (q + t) := hx.add hz (by simpa using short 1 (by omega))
    obtain ⟨ps, m', rounds, length, fresh', last⟩ := ih next sum
      (fun k starts => completes k (starts.after enters body returns)) (by omega)
      fun k few => by
        have := short (k + 1) (by omega)
        rwa [Nat.cast_add, Nat.cast_one, add_mul, one_mul, add_comm (k * t : Int), ← add_assoc] at this
    refine ⟨(p, b) :: ps, m', .round enters body returns rounds, by simp [length], fun k p₁ b₁ found => ?_, last⟩
    cases k with
    | zero =>
      cases found
      simpa using fresh
    | succ k =>
      have := fresh' k p₁ b₁ found
      rwa [add_assoc, add_comm t, ← add_one_mul, ← Nat.cast_add_one] at this

end

end Activation

end ScriptEngine
