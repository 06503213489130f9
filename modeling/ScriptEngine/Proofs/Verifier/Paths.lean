import ScriptEngine.Proofs.Verifier.Layout

/-!
# What the verifier decides

A path through a unit starts at its first instruction with the initial depths and adds up the effects of the
instructions it passes. A unit is `Balanced` if no path leaves the code, meets a word or an operand that is
wrong there or brings a depth too low, and if all paths to an instruction arrive with the same depths. There
are infinitely many paths where there is a loop.

The verifier accepts exactly the balanced units (`verify_eq_ok_iff_balanced`). It is one of many searches that
take up open addresses in some order. Any of them ends, and comes to no open address if the unit is
balanced and to a fault if it is not, so the order does not matter.
-/

namespace ScriptEngine

/-! ## Paths -/

/-- Control goes on at an address after the instruction at `ip`. -/
inductive Opcode.Goes (op : Opcode) (a ip : Nat) : Nat → Prop where
  | next (continues : op.continues = true) : op.Goes a ip (ip + 1)
  | jump (jumps : op.isJump = true) : op.Goes a ip a

/-- A path from the first instruction of a unit: the addresses it has passed, the latest first, the one
where it is now, and the depths there. -/
inductive Path (u : CodeUnit) : List Nat → Nat → Depths → Prop where
  | start : Path u [] 0 .initial
  | step {passed : List Nat} {ip q : Nat} {d : Depths} {ins : Instruction} {op : Opcode} (path : Path u passed ip d)
      (here : u.code[ip]? = some ins) (opcode : ins.opcode? = some op) (goes : op.Goes ins.a.toNat ip q) :
      Path u (ip :: passed) q (d.after op ins.a.toNat ins.b.toNat)

/-- Operand `a` of an instruction is one that it can have at a given depth. -/
def Opcode.Admits (op : Opcode) (u : CodeUnit) (a : Nat) (depth : Int) : Prop :=
  match op with
  | getStack => 1 ≤ a ∧ a ≤ depth
  | putStack => 2 ≤ a ∧ a ≤ depth
  | loadK | getGlobal | putGlobal => a < u.constants.size
  | closure => ∃ c ∈ u.children, c.id = a
  | _ => True

/-- No path goes wrong, and paths that meet agree. -/
structure Balanced (u : CodeUnit) : Prop where
  sound : ∀ {passed ip d}, Path u passed ip d → ∃ ins op, u.code[ip]? = some ins ∧ ins.opcode? = some op ∧
    op.Admits u ins.a.toNat d.depth ∧ 1 ≤ (d.after op ins.a.toNat ins.b.toNat).depth ∧
    0 ≤ (d.after op ins.a.toNat ins.b.toNat).closed
  agree : ∀ {passed passed' ip d d'}, Path u passed ip d → Path u passed' ip d' → d = d'

/-- A unit is nested in itself and in every unit that one of its children is nested in. -/
inductive CodeUnit.Within (v : CodeUnit) : CodeUnit → Prop where
  | self : v.Within v
  | nested {u c : CodeUnit} (child : c ∈ u.children) (within : v.Within c) : v.Within u

theorem CodeUnit.sizeOf_lt_of_child {u c : CodeUnit} (child : c ∈ u.children) : sizeOf c < sizeOf u := by
  have below := List.sizeOf_lt_of_mem child
  cases u
  simp only [mk.sizeOf_spec] at below ⊢
  omega

theorem CodeUnit.mem_walk_iff {u v : CodeUnit} : v ∈ u.walk ↔ v.Within u := by
  rw [walk_eq, List.mem_cons, mem_walkAll]
  constructor
  · rintro (rfl | ⟨c, child, mem⟩)
    · exact .self
    · have := sizeOf_lt_of_child child
      exact .nested child (mem_walk_iff.1 mem)
  · rintro (_ | ⟨child, within⟩)
    · exact .inl rfl
    · have := sizeOf_lt_of_child child
      exact .inr ⟨_, child, mem_walk_iff.2 within⟩
termination_by u

namespace Verifier

variable {u : CodeUnit} {ins : Instruction} {op : Opcode} {d after : Depths} {a ip q : Nat}

theorem mem_successors_iff_goes : q ∈ successors op a ip ↔ op.Goes a ip q := by
  rw [mem_successors]
  constructor
  · rintro (⟨continues, rfl⟩ | ⟨jumps, rfl⟩)
    · exact .next continues
    · exact .jump jumps
  · rintro (continues | jumps)
    · exact .inl ⟨continues, rfl⟩
    · exact .inr ⟨jumps, rfl⟩

theorem operandFlaw?_eq_none_iff {depth : Int} : operandFlaw? u op a depth = none ↔ op.Admits u a depth := by
  cases op with
  | closure =>
    simp only [operandFlaw?, Opcode.Admits, ite_eq_right_iff, reduceCtorEq, imp_false, CodeUnit.child?,
      Option.isNone_iff_eq_none, List.find?_eq_none, beq_iff_eq, not_forall, not_not, exists_prop]
  | _ => simp [operandFlaw?, Opcode.Admits] <;> omega

/-- All paths keep to a consistent assignment of depths. -/
theorem Assigned.of_path {at? : Nat → Option Depths} (assigned : Assigned u at?) {passed : List Nat}
    (path : Path u passed ip d) : at? ip = some d := by
  induction path with
  | start => exact assigned.start
  | step path here opcode goes ih =>
    obtain ⟨ins, op, after, here', check, successors⟩ := assigned.step _ _ ih
    rw [here] at here'
    cases here'
    obtain ⟨opcode', -, rfl, -⟩ := checkInstruction_eq_ok_iff.1 check
    rw [opcode] at opcode'
    cases opcode'
    exact successors _ (mem_successors_iff_goes.2 goes)

theorem Assigned.balanced {at? : Nat → Option Depths} (assigned : Assigned u at?) : Balanced u where
  sound path := by
    obtain ⟨ins, op, after, here, check, -⟩ := assigned.step _ _ (assigned.of_path path)
    obtain ⟨opcode, flaw, rfl, deep, held⟩ := checkInstruction_eq_ok_iff.1 check
    exact ⟨ins, op, here, opcode, operandFlaw?_eq_none_iff.1 flaw, deep, held⟩
  agree path path' := Option.some.inj ((assigned.of_path path).symm.trans (assigned.of_path path'))

/-! ## Searches -/

/-- A search for a fault: the depths found so far, and the addresses to take up with their depths. -/
structure Search where
  record : Record
  work : List (Nat × Depths)

namespace Search

/-- A search before its first move. -/
def start (u : CodeUnit) : Search := ⟨Array.replicate u.code.size none, [(0, .initial)]⟩

/-- One of the addresses is taken up, whichever: it is known already, or its successors join the others, in
whatever order. -/
inductive Moves (u : CodeUnit) : Search → Search → Prop where
  | known {record : Record} {work rest : List (Nat × Depths)} {ip : Nat} {d : Depths}
      (pick : work.Perm ((ip, d) :: rest)) (seen : record[ip]? = some (some d)) :
      Moves u ⟨record, work⟩ ⟨record, rest⟩
  | fresh {record : Record} {work rest opened : List (Nat × Depths)} {ip : Nat} {d after : Depths}
      {ins : Instruction} {op : Opcode} (pick : work.Perm ((ip, d) :: rest)) (unseen : record[ip]? = some none)
      (here : u.code[ip]? = some ins) (check : checkInstruction u ins d = .ok (op, after))
      (opens : opened.Perm ((successors op ins.a.toNat ip).map (·, after) ++ rest)) :
      Moves u ⟨record, work⟩ ⟨record.setIfInBounds ip (some d), opened⟩

/-- An address to take up is outside the code, or known with other depths, or fails its check. -/
def Faulty (u : CodeUnit) (s : Search) : Prop :=
  ∃ ip d, (ip, d) ∈ s.work ∧ (u.code[ip]? = none ∨
    (∃ earlier, s.record[ip]? = some (some earlier) ∧ earlier ≠ d) ∨
    ∃ ins flaw, u.code[ip]? = some ins ∧ s.record[ip]? = some none ∧ checkInstruction u ins d = .error flaw)

/-- The search has come about by moves from the start. -/
def Reached (u : CodeUnit) (s : Search) : Prop := Relation.ReflTransGen (Moves u) (start u) s

/-- Every search ends: a move leaves fewer addresses unknown, or as many and fewer to take up. -/
theorem moves_wellFounded (u : CodeUnit) : WellFounded fun s' s => Moves u s s' := by
  refine Subrelation.wf ?_ (InvImage.wf (fun s : Search => (unseen s.record, s.work.length))
    (WellFounded.prod_lex Nat.lt_wfRel.wf Nat.lt_wfRel.wf))
  intro s' s moves
  cases moves with
  | known pick seen =>
    refine Prod.Lex.right _ ?_
    rw [pick.length_eq]
    exact Nat.lt_succ_self _
  | fresh pick unseen here check opens => exact Prod.Lex.left _ _ (unseen_set_lt _ unseen)

/-- What a search knows and what it has to take up are ends of paths; what it knows has passed its check, and
its successors are known or to be taken up. -/
structure Faithful (u : CodeUnit) (s : Search) : Prop where
  size : s.record.size = u.code.size
  begun : s.record.at? 0 = some .initial ∨ (0, .initial) ∈ s.work
  covered : Covered u s.record s.work
  known : ∀ ip d, s.record.at? ip = some d → ∃ passed, Path u passed ip d
  open' : ∀ ip d, (ip, d) ∈ s.work → ∃ passed, Path u passed ip d

theorem faithful_start (u : CodeUnit) : (start u).Faithful u where
  size := Array.size_replicate
  begun := .inr (List.mem_singleton_self _)
  covered ip d known := by
    rw [start, Record.at?_replicate] at known
    cases known
  known ip d known := by
    rw [start, Record.at?_replicate] at known
    cases known
  open' ip d mem := by
    cases List.mem_singleton.1 mem
    exact ⟨_, .start⟩

/-- Each open address but the one that is taken up stays open. -/
theorem Moves.faithful {s s' : Search} (faithful : s.Faithful u) (moves : Moves u s s') : s'.Faithful u := by
  obtain ⟨size, begun, covered, known, open'⟩ := faithful
  cases moves with
  | @known record work rest ip d pick seen =>
    have here : record.at? ip = some d := Record.at?_eq_some.2 seen
    have settled (q : Nat) (e : Depths) (h : record.at? q = some e ∨ (q, e) ∈ work) :
        record.at? q = some e ∨ (q, e) ∈ rest := by
      rcases h with h | h
      · exact .inl h
      · rcases List.mem_cons.1 (pick.mem_iff.1 h) with h | h
        · cases h
          exact .inl here
        · exact .inr h
    refine ⟨size, settled _ _ begun, fun q e hq => ?_, known,
      fun q e h => open' q e (pick.mem_iff.2 (List.mem_cons_of_mem _ h))⟩
    obtain ⟨ins, op, after, code, check, next⟩ := covered q e hq
    exact ⟨ins, op, after, code, check, fun r hr => settled r after (next r hr)⟩
  | @fresh record work rest opened ip d after ins op pick unseen here check opens =>
    obtain ⟨passed, path⟩ := open' ip d (pick.mem_iff.2 List.mem_cons_self)
    have unknown : record.at? ip = none := by simp [Record.at?, unseen]
    have at_set := Record.at?_set d (h := unseen)
    have settled (q : Nat) (e : Depths) (h : record.at? q = some e ∨ (q, e) ∈ work) :
        Record.at? (record.setIfInBounds ip (some d)) q = some e ∨ (q, e) ∈ opened := by
      rw [at_set]
      rcases h with h | h
      · refine .inl ?_
        rwa [if_neg]
        rintro rfl
        rw [unknown] at h
        cases h
      · rcases List.mem_cons.1 (pick.mem_iff.1 h) with h | h
        · cases h
          exact .inl (if_pos rfl)
        · exact .inr (opens.mem_iff.2 (List.mem_append_right _ h))
    have opcode := (checkInstruction_eq_ok_iff.1 check).1
    have effect := (checkInstruction_eq_ok_iff.1 check).2.2.1
    refine ⟨by simpa using size, settled _ _ begun, fun q e hq => ?_, fun q e hq => ?_, fun q e h => ?_⟩
    · rw [at_set] at hq
      split at hq
      · rename_i same
        cases same
        cases hq
        exact ⟨ins, op, after, here, check, fun r hr => .inr (opens.mem_iff.2
          (List.mem_append_left _ (List.mem_map.2 ⟨r, hr, rfl⟩)))⟩
      · obtain ⟨ins', op', after', code, check', next⟩ := covered q e hq
        exact ⟨ins', op', after', code, check', fun r hr => settled r after' (next r hr)⟩
    · rw [at_set] at hq
      split at hq
      · rename_i same
        cases same
        cases hq
        exact ⟨passed, path⟩
      · exact known q e hq
    · rcases List.mem_append.1 (opens.mem_iff.1 h) with h | h
      · obtain ⟨r, hr, pair⟩ := List.mem_map.1 h
        cases pair
        exact ⟨_, effect ▸ path.step here opcode (mem_successors_iff_goes.1 hr)⟩
      · exact open' q e (pick.mem_iff.2 (List.mem_cons_of_mem _ h))

theorem Reached.faithful {s : Search} (reached : s.Reached u) : s.Faithful u := by
  induction reached with
  | refl => exact faithful_start u
  | tail _ moves ih => exact moves.faithful ih

/-- A search that has nothing left to take up has found the depths of all paths. -/
theorem Faithful.balanced {s : Search} (faithful : s.Faithful u) (done : s.work = []) : Balanced u := by
  obtain ⟨-, begun, covered, -, -⟩ := faithful
  rw [done] at begun covered
  have assigned : Assigned u s.record.at? := by
    refine ⟨begun.resolve_right List.not_mem_nil, fun ip d known => ?_⟩
    obtain ⟨ins, op, after, here, check, next⟩ := covered ip d known
    exact ⟨ins, op, after, here, check, fun q hq => (next q hq).resolve_right List.not_mem_nil⟩
  exact assigned.balanced

/-- The fault of a search is one of a path. -/
theorem Faithful.not_balanced {s : Search} (faithful : s.Faithful u) (faulty : s.Faulty u) : ¬Balanced u := by
  intro balanced
  obtain ⟨ip, d, mem, fault⟩ := faulty
  obtain ⟨passed, path⟩ := faithful.open' ip d mem
  obtain ⟨ins, op, here, opcode, admits, deep, held⟩ := balanced.sound path
  rcases fault with outside | ⟨earlier, seen, differ⟩ | ⟨ins', flaw, here', -, check⟩
  · rw [here] at outside
    cases outside
  · obtain ⟨passed', path'⟩ := faithful.known ip earlier (Record.at?_eq_some.2 seen)
    exact differ (balanced.agree path' path)
  · rw [here] at here'
    cases here'
    rw [checkInstruction_eq_ok_iff.2 ⟨opcode, operandFlaw?_eq_none_iff.2 admits, rfl, deep, held⟩] at check
    cases check

/-- Whichever address is taken up, it is faulty or there is a move. -/
theorem Faithful.faulty_or_moves {s : Search} (faithful : s.Faithful u) {rest : List (Nat × Depths)}
    (pick : s.work.Perm ((ip, d) :: rest)) : s.Faulty u ∨ ∃ s', Moves u s s' := by
  have mem : (ip, d) ∈ s.work := pick.mem_iff.2 List.mem_cons_self
  cases here : u.code[ip]? with
  | none => exact .inl ⟨ip, d, mem, .inl here⟩
  | some ins =>
    have inside : ip < s.record.size := faithful.size ▸ (Array.getElem?_eq_some_iff.1 here).1
    cases seen : s.record[ip]? with
    | none => exact absurd inside (Nat.not_lt.2 (Array.getElem?_eq_none_iff.1 seen))
    | some found =>
      cases found with
      | some earlier =>
        by_cases same : earlier = d
        · cases same
          exact .inr ⟨_, .known pick seen⟩
        · exact .inl ⟨ip, d, mem, .inr (.inl ⟨earlier, seen, same⟩)⟩
      | none =>
        cases check : checkInstruction u ins d with
        | error flaw => exact .inl ⟨ip, d, mem, .inr (.inr ⟨ins, flaw, here, seen, check⟩)⟩
        | ok r => exact .inr ⟨_, .fresh pick seen here check (.refl _)⟩

end Search

/-! ## The verifier as a search -/

/-- The verifier takes up the latest address first. It comes to no open address if it accepts, and to a fault if
it refuses. -/
theorem explore_search {record : Record} {work : List (Nat × Depths)} (size : record.size = u.code.size) :
    ∃ s, Relation.ReflTransGen (Search.Moves u) ⟨record, work⟩ s ∧
      ((∃ final, explore u record work = .ok final) ∧ s.work = [] ∨
        (∃ failure, explore u record work = .error failure) ∧ s.Faulty u) := by
  fun_induction explore u record work with
  | case1 record => exact ⟨_, .refl, .inl ⟨⟨record, rfl⟩, rfl⟩⟩
  | case2 record ip rest ins earlier seen code ih =>
    obtain ⟨s, moves, verdict⟩ := ih size
    exact ⟨s, .head (.known (.refl _) seen) moves, verdict⟩
  | case3 record ip d rest ins earlier seen code differ =>
    exact ⟨_, .refl, .inr ⟨⟨_, rfl⟩, ip, d, List.mem_cons_self, .inr (.inl ⟨earlier, seen, differ⟩)⟩⟩
  | case4 record ip d rest ins fresh code flaw check =>
    exact ⟨_, .refl, .inr ⟨⟨_, rfl⟩, ip, d, List.mem_cons_self, .inr (.inr ⟨ins, flaw, code, fresh, check⟩)⟩⟩
  | case5 record ip d rest ins fresh code op after check _ ih =>
    obtain ⟨s, moves, verdict⟩ := ih (by simpa using size)
    exact ⟨s, .head (.fresh (.refl _) fresh code check (.refl _)) moves, verdict⟩
  | case6 record ip d rest seen fresh =>
    refine ⟨_, .refl, .inr ⟨⟨_, rfl⟩, ip, d, List.mem_cons_self, .inl ?_⟩⟩
    -- where there is an instruction there is a place in the record
    cases here : u.code[ip]? with
    | none => rfl
    | some ins =>
      have inside : ip < record.size := size ▸ (Array.getElem?_eq_some_iff.1 here).1
      have place : record[ip]? = some record[ip] := Array.getElem?_eq_getElem inside
      cases found : record[ip] with
      | none => exact absurd (found ▸ place) (fresh ins here)
      | some earlier => exact absurd (found ▸ place) (seen ins earlier here)

theorem depths_eq_ok_iff_balanced : (∃ record, depths u = .ok record) ↔ Balanced u := by
  have size : (Search.start u).record.size = u.code.size := Array.size_replicate
  obtain ⟨s, moves, verdict⟩ := explore_search size
  have faithful : s.Faithful u := Search.Reached.faithful moves
  rcases verdict with ⟨accepted, done⟩ | ⟨⟨failure, refused⟩, faulty⟩
  · exact ⟨fun _ => faithful.balanced done, fun _ => accepted⟩
  · refine ⟨fun ⟨record, accepted⟩ => ?_, fun balanced => absurd balanced (faithful.not_balanced faulty)⟩
    have : depths u = .error failure := refused
    rw [this] at accepted
    cases accepted

theorem verify_eq_ok_iff : verify u = .ok () ↔ ∀ v : CodeUnit, v.Within u → ∃ record, depths v = .ok record := by
  simp only [← CodeUnit.mem_walk_iff, verify]
  generalize u.walk = units
  induction units with
  | nil => exact ⟨fun _ v mem => absurd mem List.not_mem_nil, fun _ => rfl⟩
  | cons v rest ih =>
    rw [List.forall_mem_cons, List.forM, ← ih]
    cases depths v with
    | error failure =>
      constructor
      · intro accepted
        cases accepted
      · rintro ⟨⟨record, accepted⟩, -⟩
        cases accepted
    | ok record => exact ⟨fun h => ⟨⟨record, rfl⟩, h⟩, And.right⟩

/-- The verifier accepts a unit, or a unit with all those nested in it, exactly if it is balanced, or all of
them are. This does not depend on the order in which it takes up addresses: no search goes on for ever,
one that has nothing left to take up has been through a balanced unit, one that has come to a fault is in a
unit that is not balanced, and every other one can go on with any address it picks. -/
theorem verify_eq_ok_iff_balanced (u : CodeUnit) :
    ((∃ record, depths u = .ok record) ↔ Balanced u) ∧
    (verify u = .ok () ↔ ∀ v : CodeUnit, v.Within u → Balanced v) ∧
    (WellFounded fun s' s => Search.Moves u s s') ∧
    ∀ s : Search, s.Reached u → (s.work = [] → Balanced u) ∧ (s.Faulty u → ¬Balanced u) ∧
      ∀ ip d rest, s.work.Perm ((ip, d) :: rest) → s.Faulty u ∨ ∃ s', Search.Moves u s s' := by
  refine ⟨depths_eq_ok_iff_balanced, ?_, Search.moves_wellFounded u, fun s reached => ?_⟩
  · simp only [verify_eq_ok_iff, depths_eq_ok_iff_balanced]
  · exact ⟨reached.faithful.balanced, reached.faithful.not_balanced, fun ip d rest => reached.faithful.faulty_or_moves⟩

/-- A constant is loaded again and again while it is truthy. -/
def looping : CodeUnit :=
  { (default : CodeUnit) with code := #[.make .loadK 0 0, .make .jmpTrue 0 0, .make .ret 0 0], constants := #[.nil] }

/-- There is a path round the loop, and no search for a fault begins with one. -/
theorem verify_eq_ok_iff_balanced_looping :
    verify looping = .ok () ∧ Path looping [1, 0] 0 .initial ∧ Balanced looping ∧
      ¬(Search.start looping).Faulty looping := by
  have accepted : verify looping = .ok () := by cbv
  obtain ⟨-, balanced, -, searches⟩ := verify_eq_ok_iff_balanced looping
  have fine := balanced.1 accepted looping .self
  have once : Path looping [0] 1 ⟨2, 0⟩ :=
    Path.start.step (show looping.code[0]? = some (.make .loadK 0 0) from rfl) rfl (.next rfl)
  have again : Path looping [1, 0] 0 .initial :=
    once.step (show looping.code[1]? = some (.make .jmpTrue 0 0) from rfl) rfl (.jump rfl)
  exact ⟨accepted, again, fine,
    fun faulty => (searches _ .refl).2.1 faulty fine⟩

end Verifier

end ScriptEngine
