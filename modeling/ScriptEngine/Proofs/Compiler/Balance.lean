import ScriptEngine.Proofs.Compiler.Primitive
import ScriptEngine.Proofs.Parser.Regular

/-!
# Compilation keeps the books

By induction over the syntax: an expression pushes exactly the slots it is compiled for, a block ends
where its declarations lead, and every function body becomes a unit that is laid out
(`compileExpr_leaves` to `compileStmts_brings`). So nothing that the parser produces fails to compile
but for a limit, and everything that compiles passes the verifier.
-/

set_option linter.dupNamespace false

namespace ScriptEngine.Compiler

variable {α β : Type} {p q : Point}

/-- From every point, `c` pushes `n` slots. -/
def Pushes (c : Compiler α) (n : Nat) : Prop := ∀ p : Point, p.Scoped → Brings p c (p.push n)

namespace Pushes

/-- What follows works on the slots that were pushed. -/
theorem seq {c : Compiler α} {d : Compiler β} {m n : Nat} (first : Pushes c m)
    (second : ∀ p : Point, p.Scoped → Brings (p.push m) d (p.push n)) :
    Pushes (c >>= fun _ => d) n := fun p h =>
  (first p h).seq (second p h)

/-- More slots on top of others. -/
theorem onto {c : Compiler α} {n : Nat} (h : Pushes c n) (hp : p.Scoped) (m : Nat) :
    Brings (p.push m) c (p.push (m + n)) := by
  have more := h (p.push m) (hp.push m)
  rw [Point.push_push] at more
  exact more

theorem line {c : Compiler β} {n line : Nat} (h : Pushes c n) :
    Pushes (do setLine line; c) n := fun p hp =>
  (setLine_brings p line).seq (h p hp)

end Pushes

namespace Leaves

theorem fixed {c : Compiler α} {n : Nat} (h : Leaves c (.fixed n)) : Pushes c n := fun p hp s hs =>
  (h p s hp hs).mono fun _ _ ht => ht.mono nofun

theorem line {c : Compiler β} {arity : Arity} {line : Nat} (h : Leaves c arity) :
    Leaves (do setLine line; c) arity := fun p s hp hs =>
  (setLine_brings p line s hs).seq fun _ t ht => h p t hp ht

end Leaves

theorem Pushes.leaves {c : Compiler α} {arity : Arity} (h : Pushes c arity.slots) : Leaves c arity :=
  fun p s hp hs => (h p hp s hs).mono fun _ _ ht => ht.mono False.elim

theorem constant_pushes (v : Value) (plain : v.isPlain = true := by rfl) :
    Pushes (loadConstant v) 1 := fun _ h => loadConstant_brings h v plain

theorem copy_onto (h : p.Scoped) {n m : Nat} (low : 1 ≤ n) (high : n ≤ m) :
    Brings (p.push m) (emit .getStack n 0) (p.push (m + 1)) := by
  have deep := h.depth
  have copy := getStack_brings (h.push m) low (by simp only [Point.push]; omega)
  rw [Point.push_push] at copy
  exact copy

theorem slot_onto (h : p.Scoped) {slot m : Nat} (low : 1 ≤ slot) (inside : slot < p.depth + m) :
    Brings (p.push m) (getSlot slot) (p.push (m + 1)) := by
  have copy := getSlot_brings (h.push m) low inside
  rw [Point.push_push] at copy
  exact copy

theorem slot_pushes (h : p.Scoped) {slot : Nat} (low : 1 ≤ slot) (inside : slot < p.depth) :
    Brings p (getSlot slot) (p.push 1) :=
  slot_onto (m := 0) h low inside

/-- The two topmost slots give way to one. -/
theorem emit_two (h : p.Scoped) (op : Opcode) (m : Nat) (simple : op.isSimple = true)
    (two : op.operands 0 0 = 2) (effect : Instruction.stackEffect op 0 0 = -1)
    (keeps : Instruction.closedEffect op 0 = 0) :
    Brings (p.push (m + 2)) (emit op 0 0) (p.push (m + 1)) :=
  emit_brings h simple (by omega) (by rw [effect]; omega) keeps (by rintro rfl; cases two)

theorem emit_not (h : p.Scoped) (m : Nat) :
    Brings (p.push (m + 1)) (emit .not 0 0) (p.push (m + 1)) :=
  emit_brings h rfl (by simp [Opcode.operands]) (by simp [Instruction.stackEffect]) rfl

theorem getTable_onto (h : p.Scoped) (m : Nat) :
    Brings (p.push (m + 2)) (emit .getTable 0 0) (p.push (m + 1)) :=
  emit_two h _ m rfl rfl rfl rfl

theorem putTable_onto (h : p.Scoped) (m : Nat) :
    Brings (p.push (m + 3)) (emit .putTable 0 0) (p.push m) :=
  emit_brings h rfl (by simp [Opcode.operands]) (by simp only [Instruction.stackEffect]; omega) rfl

/-! ## Operators -/

/-- Operators other than `and` and `or` evaluate both operands. -/
theorem binary_eq {op : BinaryOp} (strict : op ≠ .and ∧ op ≠ .or) (lhs rhs : Compiler Unit) :
    binary op lhs rhs = (do
      lhs
      rhs
      emit (binaryOpcode op).1 0 0
      if (binaryOpcode op).2 then emit .not 0 0) := by
  cases op <;> first | rfl | simp at strict

/-- The instruction of a binary operator puts one value in the place of two. -/
theorem emit_binaryOpcode (h : p.Scoped) (op : BinaryOp) :
    Brings (p.push 2) (emit (binaryOpcode op).1 0 0) (p.push 1) := by
  cases op <;> exact emit_two h _ 0 rfl rfl rfl rfl

theorem emit_unaryOpcode (h : p.Scoped) (op : UnaryOp) :
    Brings (p.push 1) (emit (unaryOpcode op) 0 0) (p.push 1) := by
  cases op <;>
    exact emit_brings h rfl (by simp [unaryOpcode, Opcode.operands])
      (by simp [unaryOpcode, Instruction.stackEffect]) rfl (by simp [unaryOpcode])

theorem binary_strict {op : BinaryOp} (strict : op ≠ .and ∧ op ≠ .or) {lhs rhs : Compiler Unit}
    (left : Pushes lhs 1) (right : Pushes rhs 1) : Pushes (binary op lhs rhs) 1 := by
  intro p h
  rw [binary_eq strict]
  refine (left p h).seq ((right.onto h 1).seq ((emit_binaryOpcode h op).seq ?_))
  split
  · exact emit_not h 0
  · exact .nothing _ _

/-- The second operand of `and` is reached by a jump that leaves the first on the stack. -/
theorem binary_and {lhs rhs : Compiler Unit} (left : Pushes lhs 1) (right : Pushes rhs 1) :
    Pushes (binary .and lhs rhs) 1 := by
  intro p h
  refine newLabel_brings (p.push 1).now fun takeRhs fresh => ?_
  refine newLabel_brings (p.push 1).now fun done fresh' => ?_
  have fresh₁ : ∀ m ∈ p.awaited, m.1 ≠ done := fun m mem => fresh' m (List.mem_cons_of_mem _ mem)
  have fresh₂ : ∀ m ∈ (done, (p.push 1).now) :: p.awaited, m.1 ≠ takeRhs :=
    List.forall_mem_cons.2 ⟨(fresh' _ List.mem_cons_self).symm, fresh⟩
  have h₁ := h.marked ((done, (p.push 1).now) :: (takeRhs, (p.push 1).now) :: p.awaited) p.passed
  have h₂ := h.marked ((done, (p.push 1).now) :: p.awaited) ((takeRhs, (p.push 1).now) :: p.passed)
  have drop := pop_brings h₂ (n := 1) (m := 0)
  rw [Nat.zero_add] at drop
  refine (left _ h₁).seq ((jmpTruePeek_brings h₁ ?_).seq ((jmp_brings (h₁.push 1) ?_).seq
    ((placeLabel_brings [_] p.awaited rfl fresh₂).seq (drop.seq ((right _ h₂).seq ?_)))))
  · exact List.mem_append_left _ (by simp [Point.marked, Point.now, Point.push])
  · exact List.mem_append_left _ (by simp [Point.marked, Point.now, Point.push])
  · exact placeLabel_done (p := p.push 1) fresh₁ fun m mem => List.mem_cons_of_mem _ mem

theorem binary_or {lhs rhs : Compiler Unit} (left : Pushes lhs 1) (right : Pushes rhs 1) :
    Pushes (binary .or lhs rhs) 1 := by
  intro p h
  refine newLabel_brings (p.push 1).now fun done fresh => ?_
  have h₁ := h.marked ((done, (p.push 1).now) :: p.awaited) p.passed
  have drop := pop_brings h₁ (n := 1) (m := 0)
  rw [Nat.zero_add] at drop
  refine (left _ h₁).seq ((jmpTruePeek_brings h₁ ?_).seq (drop.seq ((right _ h₁).seq ?_)))
  · exact List.mem_append_left _ (by simp [Point.marked, Point.now, Point.push])
  · exact placeLabel_done (p := p.push 1) fresh fun m mem => mem

theorem binary_pushes (op : BinaryOp) {lhs rhs : Compiler Unit} (left : Pushes lhs 1)
    (right : Pushes rhs 1) : Pushes (binary op lhs rhs) 1 := by
  by_cases isAnd : op = .and
  · exact isAnd ▸ binary_and left right
  by_cases isOr : op = .or
  · exact isOr ▸ binary_or left right
  exact binary_strict ⟨isAnd, isOr⟩ left right

theorem loopGuard_brings (h : p.Scoped) {v limit step : Nat} (hv : 1 ≤ v ∧ v < p.depth)
    (hlimit : 1 ≤ limit ∧ limit < p.depth) (hstep : 1 ≤ step ∧ step < p.depth) :
    Brings p (loopGuard v limit step) (p.push 1) := by
  have slot : ∀ {slot} (m : Nat), 1 ≤ slot ∧ slot < p.depth →
      Brings (p.push m) (getSlot slot) (p.push (m + 1)) := fun m inside =>
    slot_onto h inside.1 (by omega)
  have zero := fun m => (constant_pushes (.number 0.0)).onto h m
  have less := fun m => emit_two h .less m rfl rfl rfl rfl
  have lessEq := fun m => emit_two h .lessEq m rfl rfl rfl rfl
  have both := fun m => emit_two h .and m rfl rfl rfl rfl
  refine (constant_pushes (.number 0.0) rfl p h).seq ((slot 1 hstep).seq ((less 0).seq ?_))
  refine (slot 1 hv).seq ((slot 2 hlimit).seq ((lessEq 1).seq ((both 0).seq ?_)))
  refine (slot 1 hstep).seq ((zero 2).seq ((less 1).seq ?_))
  refine (slot 2 hlimit).seq ((slot 3 hv).seq ((lessEq 2).seq ((both 1).seq ?_)))
  exact emit_two h _ 0 rfl rfl rfl rfl

/-! ## Stores -/

theorem readPath_pushes (root : String) (fields : List String) : Pushes (readPath root fields) 1 := by
  intro p h
  have fieldwise : Brings (p.push 1) (fields.forM fun field => do
      loadConstant (.string field)
      emit .getTable 0 0) (p.push 1) := by
    induction fields with
    | nil => exact .nothing _ _
    | cons field rest ih =>
      exact (((constant_pushes (.string field)).onto h 1).seq (getTable_onto h 0)).seq ih
  exact (readVar_brings h root).seq fieldwise

/-- A place whose table and key lie below the temporaries. -/
def Place.Inside (p : Point) : Place → Prop
  | .variable _ => True
  | .entry slot => 1 ≤ slot ∧ slot + 1 < p.depth

theorem store_brings (h : p.Scoped) {place : Place} (inside : place.Inside p) (n : Nat) :
    Brings (p.push (n + 1)) (store place) (p.push n) := by
  match place with
  | .variable name => exact writeVar_brings h n name
  | .entry slot =>
    have inside : 1 ≤ slot ∧ slot + 1 < p.depth := inside
    refine (slot_onto h inside.1 (by omega)).seq ((slot_onto h (by omega) (by omega)).seq ?_)
    refine (copy_onto h (by omega) (by omega)).seq ((putTable_onto h (n + 1)).seq ?_)
    exact pop_brings h

/-- Stores take one value each. -/
theorem stores_brings (h : p.Scoped) (places : List Place) (inside : ∀ q ∈ places, q.Inside p) :
    Brings (p.push places.length) (places.forM store) p := by
  induction places with
  | nil => exact .nothing _ _
  | cons place rest ih =>
    exact (store_brings h (inside place (by simp)) rest.length).seq
      (ih fun q mem => inside q (by simp [mem]))

/-! ## Scopes of statements -/

/-- Where a statement leads: only declarations leave something behind. -/
def Point.after (p : Point) : Stmt → Point
  | .local names _ _ => (p.push names.length).bound names
  | .localFunction name _ _ => (p.push 1).bound [name]
  | _ => p

def Point.afterAll (p : Point) (stmts : List Stmt) : Point := stmts.foldl Point.after p

theorem Point.Scoped.after (h : p.Scoped) (stmt : Stmt) : (p.after stmt).Scoped := by
  cases stmt with
  | «local» names values line => exact h.bound names
  | localFunction name body line => exact h.bound [name]
  | _ => exact h

theorem Point.Grows.after (p : Point) (stmt : Stmt) : p.Grows (p.after stmt) := by
  cases stmt with
  | «local» names values line => exact (Grows.push p _).trans (.bound _ names)
  | localFunction name body line => exact (Grows.push p _).trans (.bound _ [name])
  | _ => exact .refl p

theorem Point.Scoped.afterAll (h : p.Scoped) (stmts : List Stmt) : (p.afterAll stmts).Scoped := by
  induction stmts generalizing p with
  | nil => exact h
  | cons stmt rest ih => exact ih (h.after stmt)

theorem Point.after_marked (p : Point) (awaited passed : Marks) (stmt : Stmt) :
    (p.marked awaited passed).after stmt = (p.after stmt).marked awaited passed := by
  cases stmt <;> rfl

theorem Point.afterAll_marked (p : Point) (awaited passed : Marks) (stmts : List Stmt) :
    (p.marked awaited passed).afterAll stmts = (p.afterAll stmts).marked awaited passed := by
  induction stmts generalizing p with
  | nil => rfl
  | cons stmt rest ih =>
    rw [afterAll, List.foldl_cons, after_marked]
    exact ih (p.after stmt)

theorem Point.Grows.afterAll (p : Point) (stmts : List Stmt) : p.Grows (p.afterAll stmts) := by
  induction stmts generalizing p with
  | nil => exact .refl p
  | cons stmt rest ih => exact (Grows.after p stmt).trans (ih _)

/-- A `break` finds its label, and what is live there is live here. -/
def Exits (exit : Option LoopExit) (p : Point) : Prop :=
  ∀ e, exit = some e →
    Within e.scope p ∧ (e.label, (p.released e.scope).now) ∈ p.awaited ++ p.passed

namespace Exits

variable {exit : Option LoopExit}

theorem none' (p : Point) : Exits none p := by
  intro e h
  cases h

theorem grows (h : Exits exit p) (grows : p.Grows q) : Exits exit q := by
  intro e found
  obtain ⟨within, mark⟩ := h e found
  have depth := grows.depth
  have closed := grows.closed
  refine ⟨⟨⟨within.depth.1, ?_⟩, ⟨?_, ?_⟩⟩, ?_⟩
  · exact Nat.le_trans within.depth.2 depth
  · rw [grows.upvalues]
    exact within.closed.1
  · exact Nat.le_trans within.closed.2 closed
  · rw [grows.awaited, grows.passed]
    simp only [Point.released, Point.now, grows.upvalues]
    exact mark

theorem marked (h : Exits exit p) {awaited passed : Marks}
    (kept : ∀ m ∈ p.awaited ++ p.passed, m ∈ awaited ++ passed) :
    Exits exit (p.marked awaited passed) := by
  intro e found
  obtain ⟨within, mark⟩ := h e found
  exact ⟨⟨within.depth, within.closed⟩, kept _ mark⟩

/-- Leaving a loop leads to where the loop was entered. -/
theorem loop (h : p.Scoped) (grows : p.Grows q) {label : Nat}
    (mark : (label, p.now) ∈ p.awaited ++ p.passed) : Exits (some ⟨label, p.scope⟩) q := by
  have start : Exits (some ⟨label, p.scope⟩) p := by
    rintro e ⟨⟩
    exact ⟨h.within (.refl p), mark⟩
  exact start.grows grows

end Exits

/-! ## Function bodies -/

/-- Where the body of a nested function with the given id starts. -/
def Point.child (p : Point) (isVararg : Bool) (id : Nat) : Point where
  upvalues := p.closed
  enclosing := p.locals.map (fun l => (l.name, l.closurePos)) ++ p.enclosing
  isVararg
  id
  firstId := id + 1
  awaited := []
  passed := []
  locals := []
  depth := 1
  closed := p.closed

theorem Point.Scoped.child (h : p.Scoped) (isVararg : Bool) (id : Nat) :
    (p.child isVararg id).Scoped where
  depth := Nat.le_refl 1
  closed := Nat.le_refl _
  locals l hl := by cases hl
  enclosing q hq := by
    rcases List.mem_append.1 hq with hq | hq
    · obtain ⟨l, hl, rfl⟩ := List.mem_map.1 hq
      exact (h.locals l hl).2.2
    · exact Nat.lt_of_lt_of_le (h.enclosing q hq) h.closed

theorem At.child {s : State} (hs : At p s) (name : String) (id line paramCount : Nat)
    (isVararg : Bool) :
    At (p.child isVararg id) ({ s with nextId := id + 1 }.child name id line paramCount isVararg) where
  upvalues := hs.closed
  enclosing := by
    simp only [State.child, Point.child]
    rw [hs.locals, hs.enclosing]
  isVararg := rfl
  ids := ⟨rfl, Nat.le_refl _⟩
  locals := rfl
  depth := rfl
  closed := hs.closed
  drafted := by
    have now : (p.child isVararg id).now = .initial := by simp [Point.now, Point.child, Depths.initial]
    rw [now]
    exact ⟨_, .initial paramCount isVararg _ _, Drafted.not_open_initial paramCount isVararg⟩

/-- The last instruction of a body returns nothing. -/
theorem emit_ret_leads (h : p.Scoped) {s : State} (hs : At p s) :
    Leads CompileError.IsLimit (emit .ret 0 0) s fun _ t =>
      t = { s with builder := s.builder.emit (.make .ret 0 0) s.line } := by
  have deep := h.depth
  have legal : Legal s.builder.draft p.upvalues (fun _ => 0) .ret 0 0 p.now :=
    { operands := by simp only [Opcode.operands, Point.now]; omega
      closed := h.now_closed 0
      read := by simp, write := by simp, constant := by simp, global := by simp, expand := by simp
      release := by simp, upvalue := by simp, nested := by simp }
  unfold emit
  refine (apply_leads hs legal _ (d := p.depth) (c := p.closed) (by simp [Instruction.stackEffect])
    (by simp [Instruction.closedEffect])).seq ?_
  rintro - t rfl
  refine Leads.modify ?_
  rw [← hs.depth, ← hs.closed]
  rfl

/-- A body without open labels becomes a unit that is laid out. -/
theorem finish_leads (h : p.Scoped) {s : State} (hs : At p s) (settled : p.awaited = []) {id : Nat}
    {name source : String} {r : Except CompileError CodeUnit}
    (finished : (s.builder.emit (.make .ret 0 0) s.line).finish id name source = r) :
    (∀ u, r = .ok u → Layout p.upvalues u ∧ u.id = id) ∧ ∀ e, r = .error e → e.IsLimit := by
  have deep := h.depth
  obtain ⟨g, hg, firm⟩ := hs.drafted
  rw [settled] at hg
  refine ⟨fun u ok => ?_, fun e error => ?_⟩
  · rw [ok] at finished
    refine ⟨hg.layout_finish firm ?_ (h.now_closed 0) finished, (Builder.finish_eq_ok finished).2.2.2.1⟩
    simp only [Point.now]
    omega
  · rw [error] at finished
    rcases Builder.finish_error finished with ⟨-, rfl⟩ | ⟨jump, mem, open'⟩
    · trivial
    · have := hg.settled jump mem
      rw [show (s.builder.emit (.make .ret 0 0) s.line).labelAddress? jump.2 =
        s.builder.labelAddress? jump.2 from rfl] at open'
      rw [open'] at this
      cases this

/-- The code of a body, up to its last instruction. -/
theorem body_leads (h : p.Scoped) (base : p.depth = 1) (open' : p.awaited = []) (params : List String) {body : Block}
    (statements : ∀ p : Point, p.Scoped →
      Brings p (compileStatements none body) (p.afterAll body.stmts)) {s : State} (hs : At p s) :
    Leads CompileError.IsLimit (do
      if !params.isEmpty then
        emit .popVarArgs params.length 0
        bindLocals params
      compileStatements none body
      emit .ret 0 0) s fun _ t => ∃ q t', q.Scoped ∧ p.Grows q ∧ q.awaited = [] ∧ At q t' ∧
        t = { t' with builder := t'.builder.emit (.make .ret 0 0) t'.line } := by
  have ends : ∀ {q : Point}, q.Scoped → p.Grows q → ∀ t', At q t' →
      Leads CompileError.IsLimit (do compileStatements none body; emit .ret 0 0) t' fun _ t =>
        ∃ q t', q.Scoped ∧ p.Grows q ∧ q.awaited = [] ∧ At q t' ∧
          t = { t' with builder := t'.builder.emit (.make .ret 0 0) t'.line } := by
    intro q hq grows t' ht'
    have grows' := grows.trans (.afterAll q body.stmts)
    refine (statements q hq t' ht').seq fun _ t ht => ?_
    refine (emit_ret_leads (hq.afterAll _) ht).mono fun _ u hu => ?_
    exact ⟨_, t, hq.afterAll _, grows', grows'.awaited.trans open', ht, hu⟩
  have deep := h.depth
  refine Leads.ite (fun _ => ?_) fun _ => ends h (.refl p) s hs
  have legal : ∀ u captured, Legal u p.upvalues captured .popVarArgs params.length 0 p.now :=
    fun u captured =>
    { operands := by simp only [Opcode.operands, Point.now]; omega
      closed := h.now_closed 0
      expand := fun _ => Nat.zero_le 1
      read := by simp, write := by simp, constant := by simp, global := by simp
      release := by simp, upvalue := by simp, nested := by simp }
  refine (emit_leads hs rfl (legal _) (d := p.depth + params.length) (c := p.closed)
    (by simp [Instruction.stackEffect]) (by simp [Instruction.closedEffect]) rfl
    fun _ _ => base).seq fun _ t ht => ?_
  refine (bindLocals_brings h params t ht.1).seq fun _ t ht => ?_
  exact ends (h.bound params) ((Point.Grows.push p _).trans (.bound _ params)) t ht

theorem function_pushes (params : List String) (isVararg : Bool) {body : Block} (line : Nat)
    (name : String)
    (statements : ∀ p : Point, p.Scoped →
      Brings p (compileStatements none body) (p.afterAll body.stmts)) :
    Pushes (compileFunction ⟨params, isVararg, body, line⟩ name) 1 := by
  intro p h s hs
  have deep := h.depth
  obtain ⟨g, hg, firm⟩ := hs.drafted
  unfold compileFunction
  refine Leads.bind (Leads.get ?_)
  refine Leads.ite (fun _ => Leads.bind (Leads.throw trivial)) fun few => ?_
  refine Leads.ite (fun _ => Leads.bind (Leads.throw trivial)) fun few' => ?_
  have ran := body_leads (h.child isVararg s.nextId) rfl rfl params statements
    (hs.child name s.nextId line params.length isVararg)
  refine Leads.bind (Leads.lift (fun r done => ?_) fun e failed => ran.error failed)
  obtain ⟨⟨⟩, child⟩ := r
  obtain ⟨q, t, hq, grows, settled, ht, rfl⟩ := ran.ok done
  refine Leads.bind (Leads.lift (fun u finished => ?_) (finish_leads hq ht settled rfl).2)
  obtain ⟨layout, named⟩ := (finish_leads hq ht settled finished).1 u rfl
  have id : u.id = s.nextId := by
    rw [named]
    exact ht.ids.1.trans (congrArg Point.id grows.same :)
  have first : q.firstId = s.nextId + 1 := (congrArg Point.firstId grows.same :)
  have later := ht.ids.2
  have earlier := hs.ids.2
  -- the unit is found under its id, and its closures take over the whole closure list
  obtain ⟨drafted, found⟩ := hg.addChild (Nat.le_of_eq id.symm) layout (show u.id < t.nextId by omega)
  refine Leads.bind (Leads.set ?_)
  have here : At p { s with nextId := t.nextId, builder := s.builder.addChild u } :=
    ⟨hs.upvalues, hs.enclosing, hs.isVararg, ⟨hs.ids.1, by simp only; omega⟩, hs.locals, hs.depth,
      hs.closed, _, drafted, firm⟩
  have sorts : Sorts False .closure s.nextId 0 p.depth False := ⟨False.elim, by simp, by simp [Opcode.opens], by simp⟩
  refine (emit_drafted here rfl drafted firm ?_ sorts (d := p.depth + 1) (c := p.closed)
    (by simp [Instruction.stackEffect]) (by simp [Instruction.closedEffect])).mono fun _ t ht => ht.1
  have held : q.upvalues = p.closed := grows.upvalues
  exact { operands := by simp only [Opcode.operands, Point.now]; omega
          closed := h.now_closed 0
          nested := fun _ => ⟨u, by rw [← id]; exact found, by
            simp only [id, if_true, held, Point.now]
            omega⟩
          read := by simp, write := by simp, constant := by simp, global := by simp
          expand := by simp, release := by simp, upvalue := by simp }

/-! ## Statements from their parts -/

/-- From every point, `c` pushes `n` slots, the last of which may hold a multi-value. -/
def Heaps (c : Compiler α) (n : Nat) : Prop :=
  ∀ (p : Point) (s : State), p.Scoped → At p s → Leads CompileError.IsLimit c s fun _ t =>
    Stands (0 < n) (p.push n) t

theorem Heaps.onto {c : Compiler α} {n : Nat} (h : Heaps c n) (hp : p.Scoped) (m : Nat) {s : State}
    (hs : At (p.push m) s) :
    Leads CompileError.IsLimit c s fun _ t => Stands (0 < n) (p.push (m + n)) t := by
  have more := h (p.push m) s (hp.push m) hs
  rw [Point.push_push] at more
  exact more

/-- Releasing closed variables passes by the values that a return takes. -/
theorem multi_return_leads {n : Nat} {c : Compiler Unit} (values : Heaps c n) (h : p.Scoped)
    (line : Nat) {s : State} (hs : At p s) :
    Leads CompileError.IsLimit (do
      setLine line
      c
      setLine line
      let s ← get
      if s.upvalueCount < s.closed then emit .popClosed (s.closed - s.upvalueCount) 0
      emit .ret n 0) s fun _ t => Left p t := by
  have deep := h.depth
  have held := h.closed
  have ends : ∀ c', p.upvalues ≤ c' → ∀ t, Stands (0 < n) { p.push n with closed := c' } t →
      Leads CompileError.IsLimit (emit .ret n 0) t fun _ t => Left p t := by
    intro c' low t ht
    have sorts : Sorts (0 < n) .ret n 0 (p.push n).depth False :=
      ⟨fun some' => by simpa [Opcode.expands] using some', by simp, by simp [Opcode.opens], by simp⟩
    refine (emit_stands ht rfl (fun captured => ?_) sorts (d := p.depth) (c := c') ?_ ?_).mono
      fun _ t ht => ?_
    · exact { operands := by simp only [Opcode.operands, Point.now, Point.push]; omega
              closed := by simp only [Point.now, Point.push]; omega
              read := by simp, write := by simp, constant := by simp, global := by simp
              expand := by simp, release := by simp, upvalue := by simp, nested := by simp }
    · simp only [Instruction.stackEffect, Point.push]
      omega
    · simp [Instruction.closedEffect]
    · have ht := ht.2 rfl
      exact ⟨ht.upvalues, ht.enclosing, ht.isVararg, ht.ids, ht.locals, ht.drafted⟩
  refine (setLine_brings p line s hs).seq fun _ t ht => (values p t h ht).seq fun _ t ht => ?_
  refine (setLine_stands ht line).seq fun _ t ht => Leads.bind (Leads.get ?_)
  have closed : t.closed = p.closed := ht.closed
  have upvalues : t.upvalueCount = p.upvalues := ht.upvalues
  rw [closed, upvalues]
  refine Leads.ite (fun more => ?_) fun none' => ends p.closed held t ht
  have sorts : Sorts (0 < n) .popClosed (p.closed - p.upvalues) 0 (p.push n).depth (0 < n) :=
    ⟨fun _ => rfl, by simp, by simp [Opcode.opens], fun _ => id⟩
  refine (emit_stands ht rfl (fun captured => ?_) sorts (d := p.depth + n)
    (c := p.upvalues) ?_ ?_).seq fun _ t ht => ends p.upvalues (Nat.le_refl _) t ht.1
  · exact { operands := by simp only [Opcode.operands, Point.now, Point.push]; omega
            closed := (h.now_closed n)
            release := fun _ => by simp only [Point.now, Point.push]; omega
            read := by simp, write := by simp, constant := by simp, global := by simp
            expand := by simp, upvalue := by simp, nested := by simp }
  · simp [Instruction.stackEffect, Point.push]
  · simp only [Instruction.closedEffect, Point.push]
    omega

/-- A loop with its test at the top. -/
theorem while_brings (h : p.Scoped) {cond : Compiler Unit} (body : Option LoopExit → Compiler Unit)
    (test : Pushes cond 1)
    (inner : ∀ (p : Point) exit, p.Scoped → Exits exit p → ∃ q, p.Grows q ∧ Brings p (body exit) q) :
    Brings p (do
      let start ← newLabel
      let done ← newLabel
      placeLabel start
      cond
      emit .not 0 0
      emitJump .jmpTrue false done
      inScope (body (some ⟨done, ← scope⟩))
      emitJump .jmp false start
      placeLabel done) p := by
  refine newLabel_brings p.now fun start fresh => newLabel_brings p.now fun done fresh' => ?_
  have fresh₁ : ∀ m ∈ p.awaited, m.1 ≠ done := fun m mem => fresh' m (List.mem_cons_of_mem _ mem)
  have fresh₂ : ∀ m ∈ (done, p.now) :: p.awaited, m.1 ≠ start :=
    List.forall_mem_cons.2 ⟨(fresh' _ List.mem_cons_self).symm, fresh⟩
  have h₁ := h.marked ((done, p.now) :: p.awaited) ((start, p.now) :: p.passed)
  have toDone : (done, p.now) ∈ ((done, p.now) :: p.awaited) ++ ((start, p.now) :: p.passed) := by simp
  have toStart : (start, p.now) ∈ ((done, p.now) :: p.awaited) ++ ((start, p.now) :: p.passed) := by
    simp
  obtain ⟨q, grows, inside⟩ := inner _ (some ⟨done, p.scope⟩) h₁ (.loop h₁ (.refl _) toDone)
  refine (placeLabel_brings [_] p.awaited rfl fresh₂).seq ((test _ h₁).seq ((emit_not h₁ 0).seq ?_))
  refine (jmpTrue_brings h₁ toDone).seq (scope_brings ((inScope_brings h₁ grows inside).seq ?_))
  refine (jmp_brings h₁ toStart).seq ?_
  exact placeLabel_done fresh₁ fun m mem => List.mem_cons_of_mem _ mem

/-- A loop with its test at the bottom, in the scope of the body. -/
theorem repeat_brings (h : p.Scoped) {cond : Compiler Unit} (body : Option LoopExit → Compiler Unit)
    {stmts : List Stmt} (test : Pushes cond 1)
    (inner : ∀ (p : Point) exit, p.Scoped → Exits exit p → Brings p (body exit) (p.afterAll stmts)) :
    Brings p (do
      let start ← newLabel
      let exit ← newLabel
      let done ← newLabel
      placeLabel start
      let outer ← scope
      body (some ⟨exit, outer⟩)
      cond
      emitJump .jmpTrue false done
      jumpOut outer start
      placeLabel done
      closeScope outer
      placeLabel exit) p := by
  let q := p.afterAll stmts
  refine newLabel_brings p.now fun start fresh => newLabel_brings p.now fun exit fresh' => ?_
  refine newLabel_brings q.now fun done fresh'' => ?_
  have exit_fresh : ∀ m ∈ p.awaited, m.1 ≠ exit := fun m mem => fresh' m (List.mem_cons_of_mem _ mem)
  have done_fresh : ∀ m ∈ (exit, p.now) :: p.awaited, m.1 ≠ done :=
    List.forall_mem_cons.2 ⟨fresh'' _ List.mem_cons_self, fun m mem =>
      fresh'' m (List.mem_cons_of_mem _ (List.mem_cons_of_mem _ mem))⟩
  have start_fresh : ∀ m ∈ (done, q.now) :: (exit, p.now) :: p.awaited, m.1 ≠ start :=
    List.forall_mem_cons.2 ⟨(fresh'' _ (List.mem_cons_of_mem _ List.mem_cons_self)).symm,
      List.forall_mem_cons.2 ⟨(fresh' _ List.mem_cons_self).symm, fresh⟩⟩
  -- the labels while the body is compiled, and after it
  let awaited := (done, q.now) :: (exit, p.now) :: p.awaited
  let passed := (start, p.now) :: p.passed
  have h₁ : (p.marked awaited passed).Scoped := h.marked _ _
  have hq : (q.marked awaited passed).Scoped := (h.afterAll stmts).marked _ _
  have grows := (Point.Grows.afterAll p stmts).marked awaited passed
  have body' := inner _ (some ⟨exit, p.scope⟩) h₁ (.loop h₁ (.refl _) (by simp [Point.marked, awaited,
    passed, Point.now]))
  rw [Point.afterAll_marked] at body'
  refine (placeLabel_brings [_, _] p.awaited rfl start_fresh).seq (scope_brings (body'.seq ?_))
  refine (test _ hq).seq ((jmpTrue_brings hq ?_).seq ((jumpOut_brings (h₁.within grows) ?_).seq ?_))
  · simp [Point.marked, awaited, Point.now]
  · rw [grows.released_now]
    simp [Point.marked, passed, Point.now]
  · have done_passed := (Point.Grows.afterAll p stmts).marked ((exit, p.now) :: p.awaited)
      ((done, q.now) :: passed)
    refine (placeLabel_brings [] _ rfl done_fresh).seq ?_
    refine (closeScope_grown (h.marked _ _) done_passed).seq (placeLabel_done exit_fresh ?_)
    exact fun m mem => List.mem_cons_of_mem _ (List.mem_cons_of_mem _ mem)

/-- What a loop does with its hidden control slots, up to where it is left for good. -/
theorem numericFor_brings (h : p.Scoped) {start limit step : Compiler Unit} (var : String)
    (body : Option LoopExit → Compiler Unit) (hstart : Pushes start 1) (hlimit : Pushes limit 1)
    (hstep : Pushes step 1)
    (inner : ∀ (p : Point) exit, p.Scoped → Exits exit p → ∃ q, p.Grows q ∧ Brings p (body exit) q) :
    Brings p (do
      let outer ← scope
      start
      limit
      step
      emit .forPrep 0 0
      let control ← scope
      let (v, limitSlot, stepSlot) := (control.depth - 3, control.depth - 2, control.depth - 1)
      let top ← newLabel
      let exit ← newLabel
      placeLabel top
      loopGuard v limitSlot stepSlot
      emit .not 0 0
      emitJump .jmpTrue false exit
      getSlot v
      bindLocals [var]
      body (some ⟨exit, control⟩)
      closeScope control
      getSlot v
      getSlot stepSlot
      emit .add 0 0
      putSlot v
      emitJump .jmp false top
      placeLabel exit
      closeScope outer) p := by
  have deep := h.depth
  let r := p.push 3
  have hr : r.Scoped := h.push 3
  have prepare : Brings (p.push 3) (emit .forPrep 0 0) (p.push 3) :=
    emit_brings h rfl (by simp [Opcode.operands]) (by simp [Instruction.stackEffect]) rfl
  refine scope_brings ((hstart p h).seq ((hlimit.onto h 1).seq ((hstep.onto h 2).seq
    (prepare.seq (scope_brings ?_)))))
  refine newLabel_brings r.now fun top fresh => newLabel_brings r.now fun exit fresh' => ?_
  have exit_fresh : ∀ m ∈ p.awaited, m.1 ≠ exit := fun m mem => fresh' m (List.mem_cons_of_mem _ mem)
  have top_fresh : ∀ m ∈ (exit, r.now) :: p.awaited, m.1 ≠ top :=
    List.forall_mem_cons.2 ⟨(fresh' _ List.mem_cons_self).symm, fresh⟩
  -- the control slots in the loop, and the point where its body starts
  let c := r.marked ((exit, r.now) :: p.awaited) ((top, r.now) :: p.passed)
  have hc : c.Scoped := hr.marked _ _
  have toExit : (exit, c.now) ∈ c.awaited ++ c.passed := by simp [c, Point.marked, Point.now]
  have toTop : (top, c.now) ∈ c.awaited ++ c.passed := by simp [c, Point.marked, Point.now]
  have inside : c.depth = p.depth + 3 := rfl
  have control : (p.push 3).scope.depth = p.depth + 3 := rfl
  have started : c.Grows ((c.push 1).bound [var]) := (Point.Grows.push c 1).trans (.bound _ [var])
  obtain ⟨q, grows, bodyBrings⟩ := inner _ (some ⟨exit, c.scope⟩) (hc.bound [var])
    (.loop hc started toExit)
  have v : 1 ≤ c.depth - 3 ∧ c.depth - 3 < c.depth := by omega
  have s : 1 ≤ c.depth - 1 ∧ c.depth - 1 < c.depth := by omega
  refine (placeLabel_brings [_] p.awaited rfl top_fresh).seq
    ((loopGuard_brings hc v (by omega) s).seq ((emit_not hc 0).seq ((jmpTrue_brings hc toExit).seq ?_)))
  refine (slot_pushes hc v.1 v.2).seq ((bindLocals_brings hc [var]).seq (bodyBrings.seq ?_))
  refine (closeScope_grown hc (started.trans grows)).seq ((slot_pushes hc v.1 v.2).seq ?_)
  refine (slot_onto hc s.1 (by omega)).seq ((emit_two hc _ 0 rfl rfl rfl rfl).seq ?_)
  refine (putSlot_brings hc (n := 0) (by omega) (by omega)).seq ((jmp_brings hc toTop).seq ?_)
  refine (placeLabel_done (p := r) exit_fresh fun m mem => List.mem_cons_of_mem _ mem).seq ?_
  exact closeScope_grown h (.push p 3)

theorem genericFor_brings (h : p.Scoped) {values : Compiler Unit} {names : List String}
    (some' : names ≠ []) (body : Option LoopExit → Compiler Unit) (hvalues : Pushes values 3)
    (inner : ∀ (p : Point) exit, p.Scoped → Exits exit p → ∃ q, p.Grows q ∧ Brings p (body exit) q) :
    Brings p (do
      let outer ← scope
      values
      let control ← scope
      let (iterator, state, last) := (control.depth - 3, control.depth - 2, control.depth - 1)
      let top ← newLabel
      let run ← newLabel
      let exit ← newLabel
      placeLabel top
      getSlot iterator
      getSlot state
      getSlot last
      emit .call 2 names.length
      bindLocals names
      let first := (← get).depth - names.length
      getSlot first
      putSlot last
      getSlot first
      loadConstant .nil
      emit .eq 0 0
      emit .not 0 0
      emitJump .jmpTrue false run
      jumpOut control exit
      placeLabel run
      body (some ⟨exit, control⟩)
      closeScope control
      emitJump .jmp false top
      placeLabel exit
      closeScope outer) p := by
  have deep := h.depth
  have many : names.length ≠ 0 := by simpa using some'
  let r := p.push 3
  have hr : r.Scoped := h.push 3
  let b := (r.push names.length).bound names
  refine scope_brings ((hvalues p h).seq (scope_brings ?_))
  refine newLabel_brings r.now fun top fresh => newLabel_brings b.now fun run fresh' => ?_
  refine newLabel_brings r.now fun exit fresh'' => ?_
  have run_fresh : ∀ m ∈ (exit, r.now) :: p.awaited, m.1 ≠ run :=
    List.forall_mem_cons.2 ⟨(fresh'' _ List.mem_cons_self).symm, fun m mem =>
      fresh' m (List.mem_cons_of_mem _ mem)⟩
  have exit_fresh : ∀ m ∈ p.awaited, m.1 ≠ exit := fun m mem =>
    fresh'' m (List.mem_cons_of_mem _ (List.mem_cons_of_mem _ mem))
  have top_fresh : ∀ m ∈ (exit, r.now) :: (run, b.now) :: p.awaited, m.1 ≠ top :=
    List.forall_mem_cons.2 ⟨(fresh'' _ (List.mem_cons_of_mem _ List.mem_cons_self)).symm,
      List.forall_mem_cons.2 ⟨(fresh' _ List.mem_cons_self).symm, fresh⟩⟩
  -- the control slots before and after the label of the body has its place
  let c := r.marked ((exit, r.now) :: (run, b.now) :: p.awaited) ((top, r.now) :: p.passed)
  let d := r.marked ((exit, r.now) :: p.awaited) ((run, b.now) :: (top, r.now) :: p.passed)
  have hc : c.Scoped := hr.marked _ _
  have hd : d.Scoped := hr.marked _ _
  have startedC : c.Grows ((c.push names.length).bound names) :=
    (Point.Grows.push c _).trans (.bound _ names)
  have startedD : d.Grows ((d.push names.length).bound names) :=
    (Point.Grows.push d _).trans (.bound _ names)
  have hb := hc.bound names
  have inside : c.depth = p.depth + 3 := rfl
  have control : (p.push 3).scope.depth = p.depth + 3 := rfl
  have insideB : ((c.push names.length).bound names).depth = p.depth + 3 + names.length := rfl
  obtain ⟨q, grows, bodyBrings⟩ := inner _ (some ⟨exit, d.scope⟩) (hd.bound names)
    (.loop hd startedD (by simp [d, Point.marked, Point.now]))
  have call : Brings (c.push 3) (emit .call 2 names.length) (c.push names.length) := by
    refine emit_brings hc rfl (by simp [Opcode.operands]) ?_ rfl fun _ => many
    simp only [Instruction.stackEffect, many, if_false]
    omega
  refine (placeLabel_brings [_, _] p.awaited rfl top_fresh).seq ?_
  refine (slot_pushes hc (by omega) (by omega)).seq ((slot_onto hc (by omega) (by omega)).seq ?_)
  refine (slot_onto hc (by omega) (by omega)).seq ?_
  refine call.seq ((bindLocals_brings hc names).seq fun s hs => Leads.bind (Leads.get ?_))
  rw [hs.depth]
  refine Brings.seq (slot_pushes hb (by omega) (by omega))
    ((putSlot_brings hb (n := 0) (by omega) (by omega)).seq ?_) s hs
  refine (slot_pushes hb (by omega) (by omega)).seq (((constant_pushes .nil).onto hb 1).seq ?_)
  refine (emit_two hb _ 0 rfl rfl rfl rfl).seq ((emit_not hb 0).seq ((jmpTrue_brings hb ?_).seq ?_))
  · simp [c, b, Point.marked, Point.now, Point.bound, Point.push]
  refine (jumpOut_brings (hc.within startedC) ?_).seq ?_
  · rw [startedC.released_now]
    simp [c, Point.marked, Point.now, Point.bound, Point.push]
  refine (placeLabel_brings [_] p.awaited rfl run_fresh).seq (bodyBrings.seq ?_)
  refine (closeScope_grown hd (startedD.trans grows)).seq ((jmp_brings hd ?_).seq ?_)
  · simp [d, Point.marked, Point.now]
  refine (placeLabel_done (p := r) exit_fresh fun m mem =>
    List.mem_cons_of_mem _ (List.mem_cons_of_mem _ mem)).seq ?_
  exact closeScope_grown h (.push p 3)

theorem adjusted {c : Compiler Unit} (h : Pushes c 1) (arity : Arity) :
    Leaves (do c; adjustSingle arity) arity :=
  Pushes.leaves (h.seq fun _ hp => adjustSingle_brings hp arity)

/-- A call of a function on `n` arguments. -/
theorem call_leaves {callee args : Compiler Unit} {n : Nat} (hcallee : Pushes callee 1)
    (hargs : Heaps args n) (line : Nat) (arity : Arity) :
    Leaves (do
      callee
      args
      setLine line
      finishCall n arity) arity := by
  intro p s hp hs
  refine (hcallee p hp s hs).seq fun _ t ht => (hargs.onto hp 1 ht).seq fun _ t ht => ?_
  rw [Nat.add_comm] at ht
  exact (setLine_stands ht line).seq fun _ t ht => finishCall_stands hp id arity ht

/-- The method and the object change places before the arguments. -/
theorem methodCall_leaves {object args : Compiler Unit} {n : Nat} (hobject : Pushes object 1)
    (hargs : Heaps args n) (method : String) (line : Nat) (arity : Arity) :
    Leaves (do
      object
      emit .getStack 1 0
      loadConstant (.string method)
      emit .getTable 0 0
      emit .getStack 1 0
      emit .getStack 3 0
      emit .putStack 3 0
      emit .putStack 3 0
      args
      setLine line
      finishCall (n + 1) arity) arity := by
  intro p s h hs
  have deep := h.depth
  have arguments : ∀ t, At (p.push 2) t → Leads CompileError.IsLimit (do
      args
      setLine line
      finishCall (n + 1) arity) t fun _ t => Stands (arity = .multi) (p.push arity.slots) t := by
    intro t ht
    refine (hargs.onto h 2 ht).seq fun _ t ht => (setLine_stands ht line).seq fun _ t ht => ?_
    rw [show 2 + n = n + 1 + 1 by omega] at ht
    exact finishCall_stands h (fun _ => Nat.succ_pos n) arity ht
  have method' := (constant_pushes (.string method)).onto h 2
  refine (hobject p h s hs).seq fun _ t ht => (copy_onto h (by omega) (by omega) t ht).seq fun _ t ht => ?_
  refine (method' t ht).seq fun _ t ht => (getTable_onto h 1 t ht).seq fun _ t ht => ?_
  refine (copy_onto h (by omega) (by omega) t ht).seq fun _ t ht => ?_
  refine (copy_onto h (by omega) (by omega) t ht).seq fun _ t ht => ?_
  refine (putStack_brings h (m := 3) (by omega) (by omega) t ht).seq fun _ t ht => ?_
  exact (putStack_brings h (m := 2) (by omega) (by omega) t ht).seq fun _ t ht => arguments t ht

theorem varargs_leaves (line : Nat) (arity : Arity) :
    Leaves (do
      if (← get).builder.isVararg then
        getSlot 0
        adjustMulti arity
      else throw (.source ⟨line, 0, .varargsOutsideFunction⟩)) arity := by
  intro p s h hs
  refine Leads.bind (Leads.get (Leads.ite (fun _ => ?_) fun _ => Leads.throw (Or.inr rfl)))
  exact (getSlot_zero h hs).seq fun _ t ht => adjustMulti_stands h arity ht

/-- A value of a table constructor goes into the table, all of it if it is a multi-value. -/
theorem field_brings {value rest : Compiler Unit} (h : p.Scoped) {arity : Arity}
    (leaves : Leaves value arity) (one : arity.slots = 1) (others : Brings (p.push 1) rest q) :
    Brings (p.push 3) (do value; emit .putTable 0 0; rest) q := by
  intro s hs
  refine (leaves (p.push 3) s (h.push 3) hs).seq fun _ t ht => ?_
  rw [one, Point.push_push] at ht
  have stored : Leads CompileError.IsLimit (emit .putTable 0 0) t fun _ t => At (p.push 1) t :=
    simple_stands h rfl (by simp [Opcode.operands]) (by simp [Instruction.stackEffect]) rfl
      (fun _ => rfl) nofun ht
  exact stored.seq fun _ t ht => others t ht

/-- A target that is an entry of a table, and those after it. -/
theorem entry_leads (h : p.Scoped) {s : State} (hs : At p s) {place : Compiler Unit}
    (hplace : Pushes place 2) {rest : Compiler (List Place)} {n : Nat}
    (hrest : ∀ (q : Point) (t : State), q.Scoped → At q t →
      Leads CompileError.IsLimit rest t fun places t => ∃ m, At (q.push m) t ∧ places.length = n ∧
        ∀ r ∈ places, r.Inside (q.push m)) :
    Leads CompileError.IsLimit (do
      place
      let slot := (← get).depth - 2
      let places ← rest
      pure (Place.entry slot :: places)) s fun places t => ∃ m, At (p.push m) t ∧
        places.length = n + 1 ∧ ∀ r ∈ places, r.Inside (p.push m) := by
  refine (hplace p h s hs).seq fun _ t ht => Leads.bind (Leads.get ?_)
  refine (hrest _ t (h.push 2) ht).seq fun places u hu => Leads.pure ?_
  obtain ⟨m, hu, length, inside⟩ := hu
  rw [Point.push_push] at hu inside
  refine ⟨2 + m, hu, by simp [length], List.forall_mem_cons.2 ⟨?_, inside⟩⟩
  have deep := h.depth
  have depth : t.depth = p.depth + 2 := ht.depth
  simp only [Place.Inside, depth, Point.push]
  omega

/-- An assignment takes its temporaries away. -/
theorem assign_brings (h : p.Scoped) {targets : Compiler (List Place)} {values : Compiler Unit} {n : Nat}
    (htargets : ∀ s, At p s → Leads CompileError.IsLimit targets s fun places t => ∃ m,
      At (p.push m) t ∧ places.length = n ∧ ∀ q ∈ places, q.Inside (p.push m))
    (hvalues : Pushes values n) :
    Brings p (do
      let start := (← get).depth
      let places ← targets
      let temporaries := (← get).depth - start
      values
      places.reverse.forM store
      pop temporaries) p := by
  intro s hs
  refine Leads.bind (Leads.get ((htargets s hs).seq fun places t ht => Leads.bind (Leads.get ?_)))
  obtain ⟨m, ht, length, inside⟩ := ht
  have temporaries : t.depth - s.depth = m := by
    rw [ht.depth, hs.depth]
    simp only [Point.push]
    omega
  rw [temporaries]
  have stores := stores_brings (h.push m) places.reverse (by simpa using inside)
  rw [List.length_reverse, length] at stores
  have drop := pop_brings h (n := m) (m := 0)
  rw [Nat.zero_add] at drop
  exact ((hvalues _ (h.push m)).seq (stores.seq drop)) t ht

/-- An assignment to one entry of a table needs no temporaries. -/
theorem compileStmt_place {exit : Option LoopExit} {target : Expr} {values : List Expr} {line : Nat}
    (entry : ∀ name at', target ≠ .name name at') :
    compileStmt exit (.assign [target] values line) = (do
      setLine line
      compilePlace target
      compileValues 1 values
      emit .putTable 0 0) := by
  cases target <;> first | rfl | exact absurd rfl (entry _ _)

/-- A target that is an entry of a table, before other targets. -/
theorem compileTargets_entry {target : Expr} (entry : ∀ name line, target ≠ .name name line)
    (rest : List Expr) :
    compileTargets (target :: rest) = (do
      compilePlace target
      let slot := (← get).depth - 2
      let places ← compileTargets rest
      pure (.entry slot :: places)) := by
  cases target <;> first | rfl | exact absurd rfl (entry _ _)

theorem compileStmt_assign {exit : Option LoopExit} {targets values : List Expr} {line : Nat}
    (many : targets.length ≠ 1) :
    compileStmt exit (.assign targets values line) = (do
      setLine line
      let start := (← get).depth
      let places ← compileTargets targets
      let temporaries := (← get).depth - start
      compileValues targets.length values
      places.reverse.forM store
      pop temporaries) := by
  rw [compileStmt]
  · rfl
  · rintro name at' rfl
    exact many rfl
  · rintro target rfl
    exact many rfl

variable {N : Float → Prop}

mutual
theorem compileExpr_leaves : ∀ (e : Expr) (arity : Arity), e.Regular N →
    Leaves (compileExpr e arity) arity
  | .nil line, arity, _ => by
    rw [compileExpr]
    exact (adjusted (constant_pushes _ rfl) arity).line
  | .boolean b line, arity, _ => by
    rw [compileExpr]
    exact (adjusted (constant_pushes _ rfl) arity).line
  | .number n line, arity, _ => by
    rw [compileExpr]
    exact (adjusted (constant_pushes _ rfl) arity).line
  | .string s line, arity, _ => by
    rw [compileExpr]
    exact (adjusted (constant_pushes _ rfl) arity).line
  | .varargs line, arity, _ => by
    rw [compileExpr]
    exact (varargs_leaves line arity).line
  | .name name line, arity, _ => by
    rw [compileExpr]
    exact (adjusted (fun _ h => readVar_brings h name) arity).line
  | .paren inner line, arity, h => by
    cases h with
    | paren operand =>
      rw [compileExpr]
      exact (adjusted (compileExpr_leaves inner (.fixed 1) operand).fixed arity).line
  | .unary op inner line, arity, h => by
    cases h with
    | unary operand =>
      rw [compileExpr]
      exact (((compileExpr_leaves inner (.fixed 1) operand).fixed.seq fun p hp =>
        (emit_unaryOpcode hp op).seq (adjustSingle_brings hp arity)).leaves).line
  | .binary op lhs rhs line, arity, h => by
    cases h with
    | binary left right =>
      rw [compileExpr]
      exact (adjusted (binary_pushes op (compileExpr_leaves lhs (.fixed 1) left).fixed
        (compileExpr_leaves rhs (.fixed 1) right).fixed) arity).line
  | .index t k line, arity, h => by
    cases h with
    | index table key =>
      rw [compileExpr]
      exact (((compileExpr_leaves t (.fixed 1) table).fixed.seq fun p hp =>
        ((compileExpr_leaves k (.fixed 1) key).fixed.onto hp 1).seq ((getTable_onto hp 0).seq
          (adjustSingle_brings hp arity))).leaves).line
  | .field t name line, arity, h => by
    cases h with
    | field table =>
      rw [compileExpr]
      exact (((compileExpr_leaves t (.fixed 1) table).fixed.seq fun p hp =>
        ((constant_pushes (.string name)).onto hp 1).seq ((getTable_onto hp 0).seq
          (adjustSingle_brings hp arity))).leaves).line
  | .call f args line, arity, h => by
    cases h with
    | call callee arguments =>
      rw [compileExpr]
      exact (call_leaves (compileExpr_leaves f (.fixed 1) callee).fixed
        (compileMultiList_heaps args arguments) line arity).line
  | .methodCall o method args line, arity, h => by
    cases h with
    | methodCall object arguments =>
      rw [compileExpr]
      exact (methodCall_leaves (compileExpr_leaves o (.fixed 1) object).fixed
        (compileMultiList_heaps args arguments) method line arity).line
  | .function f, arity, h => by
    cases h with
    | function body =>
      rw [compileExpr]
      exact (adjusted (compileFunction_pushes f _ body) arity).line
  | .table fs line, arity, h => by
    cases h with
    | table fields =>
      rw [compileExpr]
      have fresh : Pushes (emit .newTable 0 0) 1 := fun p hp =>
        emit_brings (n := 0) hp rfl (by simp [Opcode.operands]) (by simp [Instruction.stackEffect]) rfl
      exact ((fresh.seq fun p hp => (compileFields_brings 1 fs fields p hp).seq
        (adjustSingle_brings hp arity)).leaves).line

theorem compileValues_pushes : ∀ (count : Nat) (es : List Expr), (∀ e ∈ es, e.Regular N) →
    Pushes (compileValues count es) count
  | count, [], _ => by
    rw [compileValues]
    exact fun p hp => loadNil_brings hp count
  | count, [e], h => by
    rw [compileValues]
    exact (compileExpr_leaves e (.fixed count) (h e (by simp))).fixed
  | count, e :: f :: rest, h => by
    rw [compileValues]
    intro p hp
    have one := (compileExpr_leaves e (.fixed (min count 1)) (h e (by simp))).fixed p hp
    have others := (compileValues_pushes (count - 1) (f :: rest) fun e mem =>
      h e (List.mem_cons_of_mem _ mem)).onto hp (min count 1)
    rw [show min count 1 + (count - 1) = count by omega] at others
    exact one.seq others

theorem compileMultiList_heaps : ∀ es : List Expr, (∀ e ∈ es, e.Regular N) →
    Heaps (compileMultiList es) es.length
  | [], _ => by
    rw [compileMultiList]
    exact fun p s _ hs => Leads.pure (hs.mono False.elim)
  | [e], h => by
    rw [compileMultiList]
    exact fun p s hp hs => (compileExpr_leaves e .multi (h e (by simp)) p s hp hs).mono
      fun _ _ ht => ht.mono fun _ => Nat.one_pos
  | e :: f :: rest, h => by
    rw [compileMultiList]
    intro p s hp hs
    have one := (compileExpr_leaves e (.fixed 1) (h e (by simp))).fixed p hp s hs
    refine one.seq fun _ t ht => ?_
    have others := (compileMultiList_heaps (f :: rest) fun e mem =>
      h e (List.mem_cons_of_mem _ mem)).onto hp 1 ht
    rw [Nat.add_comm] at others
    exact others.mono fun _ _ hu => hu.mono fun _ => Nat.succ_pos _

theorem compileFields_brings : ∀ (position : Nat) (fs : List TableField),
    (∀ f ∈ fs, f.Regular N) → ∀ p : Point, p.Scoped →
      Brings (p.push 1) (compileFields position fs) (p.push 1)
  | position, [], _ => by
    rw [compileFields]
    exact fun p _ => .nothing _ _
  | position, .positional v :: rest, h => by
    rw [compileFields]
    intro p hp
    cases h _ List.mem_cons_self with
    | positional value =>
      have last := compileExpr_leaves v (if rest.isEmpty && v.isMulti then .multi else .fixed 1) value
      refine (copy_onto hp (by omega) (by omega)).seq (((constant_pushes (.number _)).onto hp 2).seq ?_)
      exact field_brings hp last (by split <;> rfl) (compileFields_brings (position + 1) rest
        (fun f mem => h f (List.mem_cons_of_mem _ mem)) p hp)
  | position, .named name v :: rest, h => by
    rw [compileFields]
    intro p hp
    cases h _ List.mem_cons_self with
    | named value =>
      refine (copy_onto hp (by omega) (by omega)).seq (((constant_pushes (.string name)).onto hp 2).seq ?_)
      refine ((compileExpr_leaves v (.fixed 1) value).fixed.onto hp 3).seq ((putTable_onto hp 1).seq ?_)
      exact compileFields_brings position rest (fun f mem => h f (List.mem_cons_of_mem _ mem)) p hp
  | position, .keyed k v :: rest, h => by
    rw [compileFields]
    intro p hp
    cases h _ List.mem_cons_self with
    | keyed key value =>
      refine (copy_onto hp (by omega) (by omega)).seq ?_
      refine ((compileExpr_leaves k (.fixed 1) key).fixed.onto hp 2).seq ?_
      refine ((compileExpr_leaves v (.fixed 1) value).fixed.onto hp 3).seq ((putTable_onto hp 1).seq ?_)
      exact compileFields_brings position rest (fun f mem => h f (List.mem_cons_of_mem _ mem)) p hp

theorem compileFunction_pushes : ∀ (f : FunctionBody) (name : String), f.body.Regular N →
    Pushes (compileFunction f name) 1
  | ⟨params, isVararg, body, line⟩, name, h =>
    function_pushes params isVararg line name fun p hp =>
      compileStatements_brings body none h p hp (.none' p)

theorem compilePlace_pushes : ∀ e : Expr, e.Regular N → e.isAssignable = true →
    (∀ name line, e ≠ .name name line) → Pushes (compilePlace e) 2
  | .index t k line, h, _, _ => by
    cases h with
    | index table key =>
      rw [compilePlace]
      exact (compileExpr_leaves t (.fixed 1) table).fixed.seq fun p hp =>
        (compileExpr_leaves k (.fixed 1) key).fixed.onto hp 1
  | .field t name line, h, _, _ => by
    cases h with
    | field table =>
      rw [compilePlace]
      exact (compileExpr_leaves t (.fixed 1) table).fixed.seq fun p hp => (constant_pushes (.string name)).onto hp 1
  | .name name line, _, _, h => absurd rfl (h name line)
  | .nil _, _, h, _ | .boolean .., _, h, _ | .number .., _, h, _ | .string .., _, h, _ => by cases h
  | .varargs _, _, h, _ | .paren .., _, h, _ | .unary .., _, h, _ | .binary .., _, h, _ => by cases h
  | .call .., _, h, _ | .methodCall .., _, h, _ | .function _, _, h, _ | .table .., _, h, _ => by
    cases h

theorem compileTargets_leads : ∀ es : List Expr, (∀ e ∈ es, e.Regular N) →
    (∀ e ∈ es, e.isAssignable = true) → ∀ (p : Point) (s : State), p.Scoped → At p s →
      Leads CompileError.IsLimit (compileTargets es) s fun places t => ∃ n, At (p.push n) t ∧
        places.length = es.length ∧ ∀ q ∈ places, q.Inside (p.push n)
  | [], _, _, p, s, _, hs => by
    rw [compileTargets]
    exact Leads.pure ⟨0, hs, rfl, by simp⟩
  | .name name line :: rest, h, hp, p, s, ok, hs => by
    rw [compileTargets]
    refine (compileTargets_leads rest (fun e mem => h e (List.mem_cons_of_mem _ mem))
      (fun e mem => hp e (List.mem_cons_of_mem _ mem)) p s ok hs).seq fun places t ht => ?_
    obtain ⟨n, ht, length, inside⟩ := ht
    exact Leads.pure ⟨n, ht, by simp [length], List.forall_mem_cons.2 ⟨trivial, inside⟩⟩
  | .index a k l :: rest, h, hp, p, s, ok, hs => by
    rw [compileTargets.eq_def]
    exact entry_leads ok hs (compilePlace_pushes (.index a k l) (h _ List.mem_cons_self) rfl (by simp))
      fun q t hq ht => compileTargets_leads rest (fun e mem => h e (List.mem_cons_of_mem _ mem))
        (fun e mem => hp e (List.mem_cons_of_mem _ mem)) q t hq ht
  | .field a k l :: rest, h, hp, p, s, ok, hs => by
    rw [compileTargets.eq_def]
    exact entry_leads ok hs (compilePlace_pushes (.field a k l) (h _ List.mem_cons_self) rfl (by simp))
      fun q t hq ht => compileTargets_leads rest (fun e mem => h e (List.mem_cons_of_mem _ mem))
        (fun e mem => hp e (List.mem_cons_of_mem _ mem)) q t hq ht
  | .nil _ :: _, _, hp, _, _, _, _ | .boolean .. :: _, _, hp, _, _, _, _
  | .number .. :: _, _, hp, _, _, _, _ | .string .. :: _, _, hp, _, _, _, _
  | .varargs _ :: _, _, hp, _, _, _, _ | .paren .. :: _, _, hp, _, _, _, _
  | .unary .. :: _, _, hp, _, _, _, _ | .binary .. :: _, _, hp, _, _, _, _
  | .call .. :: _, _, hp, _, _, _, _ | .methodCall .. :: _, _, hp, _, _, _, _
  | .function _ :: _, _, hp, _, _, _, _ | .table .. :: _, _, hp, _, _, _, _ => by
    cases hp _ List.mem_cons_self

theorem compileStmt_brings : ∀ (stmt : Stmt) (exit : Option LoopExit), stmt.Regular N →
    ∀ p : Point, p.Scoped → Exits exit p → Brings p (compileStmt exit stmt) (p.after stmt)
  | .local names vs line, exit, h, p, hp, _ => by
    cases h with
    | «local» values =>
      rw [compileStmt]
      exact (setLine_brings p _).seq ((compileValues_pushes names.length vs values p hp).seq
        (bindLocals_brings hp names))
  | .localFunction name f line, exit, h, p, hp, _ => by
    cases h with
    | localFunction body =>
      rw [compileStmt]
      refine (setLine_brings p _).seq ((loadNil_brings hp 1).seq ((bindLocals_brings hp [name]).seq ?_))
      exact (compileFunction_pushes f name body _ (hp.bound [name])).seq
        (writeVar_brings (hp.bound [name]) 0 name)
  | .assign ts vs line, exit, h, p, hp, _ => by
    cases h with
    | assign targets places values =>
      have many := assign_brings hp (fun s hs => compileTargets_leads ts targets places p s hp hs)
        (compileValues_pushes ts.length vs values)
      match ts, targets, places, many with
      | [.name name at'], _, _, _ =>
        rw [compileStmt]
        exact (setLine_brings p _).seq ((compileValues_pushes 1 vs values p hp).seq
          (writeVar_brings hp 0 name))
      | [.index t k at'], targets, places, _ =>
        rw [compileStmt_place (by simp)]
        have place := compilePlace_pushes (.index t k at') (targets _ List.mem_cons_self) rfl (by simp)
        exact (setLine_brings p _).seq ((place p hp).seq
          (((compileValues_pushes 1 vs values).onto hp 2).seq (putTable_onto hp 0)))
      | [.field t k at'], targets, places, _ =>
        rw [compileStmt_place (by simp)]
        have place := compilePlace_pushes (.field t k at') (targets _ List.mem_cons_self) rfl (by simp)
        exact (setLine_brings p _).seq ((place p hp).seq
          (((compileValues_pushes 1 vs values).onto hp 2).seq (putTable_onto hp 0)))
      | [], _, _, many =>
        rw [compileStmt_assign (by simp)]
        exact (setLine_brings p _).seq many
      | _ :: _ :: _, _, _, many =>
        rw [compileStmt_assign (by simp)]
        exact (setLine_brings p _).seq many
      | [.nil _], _, places, _ | [.boolean ..], _, places, _ | [.number ..], _, places, _
      | [.string ..], _, places, _ | [.varargs _], _, places, _ | [.paren ..], _, places, _
      | [.unary ..], _, places, _ | [.binary ..], _, places, _ | [.call ..], _, places, _
      | [.methodCall ..], _, places, _ | [.function _], _, places, _ | [.table ..], _, places, _ =>
        cases places _ List.mem_cons_self
  | .call e, exit, h, p, hp, _ => by
    cases h with
    | call call =>
      rw [compileStmt]
      exact (setLine_brings p _).seq ((compileExpr_leaves e (.fixed 0) call).fixed p hp)
  | .block b, exit, h, p, hp, leave => by
    cases h with
    | block body =>
      rw [compileStmt]
      exact (setLine_brings p _).seq (inScope_brings hp (.afterAll p b.stmts)
        (compileStatements_brings b exit body p hp leave))
  | .while c b line, exit, h, p, hp, _ => by
    cases h with
    | «while» cond body =>
      rw [compileStmt]
      exact (setLine_brings p _).seq (while_brings hp
        (fun exit => compileStatements exit b) (compileExpr_leaves c (.fixed 1) cond).fixed
        fun q exit hq leave => ⟨_, .afterAll q b.stmts, compileStatements_brings b exit body q hq leave⟩)
  | .repeat b c line, exit, h, p, hp, _ => by
    cases h with
    | «repeat» body cond =>
      rw [compileStmt]
      exact (setLine_brings p _).seq (repeat_brings hp
        (fun exit => compileStatements exit b) (compileExpr_leaves c (.fixed 1) cond).fixed
        fun q exit hq leave => compileStatements_brings b exit body q hq leave)
  | .if cs o line, exit, h, p, hp, leave => by
    cases h with
    | «if» conds bodies otherwise =>
      rw [compileStmt]
      refine (setLine_brings p _).seq (newLabel_brings p.now fun done fresh => ?_)
      have h₁ := hp.marked ((done, p.now) :: p.awaited) p.passed
      have leave₁ : Exits exit (p.marked ((done, p.now) :: p.awaited) p.passed) :=
        leave.marked fun m mem => List.mem_cons_of_mem _ mem
      refine (compileClauses_brings cs exit done o.isSome conds bodies _ h₁ leave₁ ?_).seq ?_
      · simp [Point.marked, Point.now]
      · have last := placeLabel_done (p := p) fresh fun m mem => mem
        cases o with
        | none => exact last
        | some b =>
          exact (inScope_brings h₁ (.afterAll _ b.stmts)
            (compileStatements_brings b exit (otherwise b rfl) _ h₁ leave₁)).seq last
  | .numericFor var a l none b line, exit, h, p, hp, _ => by
    cases h with
    | numericFor start limit step body =>
      rw [compileStmt]
      exact (setLine_brings p _).seq (numericFor_brings hp var
        (fun exit => compileStatements exit b) (compileExpr_leaves a (.fixed 1) start).fixed
        (compileExpr_leaves l (.fixed 1) limit).fixed (constant_pushes (.number 1.0))
        fun q exit hq leave => ⟨_, .afterAll q b.stmts, compileStatements_brings b exit body q hq leave⟩)
  | .numericFor var a l (some e) b line, exit, h, p, hp, _ => by
    cases h with
    | numericFor start limit step body =>
      rw [compileStmt]
      exact (setLine_brings p _).seq (numericFor_brings hp var
        (fun exit => compileStatements exit b) (compileExpr_leaves a (.fixed 1) start).fixed
        (compileExpr_leaves l (.fixed 1) limit).fixed (compileExpr_leaves e (.fixed 1) (step e rfl)).fixed
        fun q exit hq leave => ⟨_, .afterAll q b.stmts, compileStatements_brings b exit body q hq leave⟩)
  | .genericFor names vs b line, exit, h, p, hp, _ => by
    cases h with
    | genericFor some' values body =>
      rw [compileStmt]
      exact (setLine_brings p _).seq (genericFor_brings hp some'
        (fun exit => compileStatements exit b) (compileValues_pushes 3 vs values)
        fun q exit hq leave => ⟨_, .afterAll q b.stmts, compileStatements_brings b exit body q hq leave⟩)
  | .function name f line, exit, h, p, hp, _ => by
    cases h with
    | function body =>
      rw [compileStmt]
      refine (setLine_brings p _).seq ?_
      split
      · exact (compileFunction_pushes f _ body p hp).seq (writeVar_brings hp 0 _)
      · refine (readPath_pushes _ _ p hp).seq (((constant_pushes _).onto hp 1).seq ?_)
        exact ((compileFunction_pushes f _ body).onto hp 2).seq (putTable_onto hp 0)
  | .break line, none, h, p, hp, leave => by
    rw [compileStmt]
    exact (setLine_brings p _).seq fun s _ => Leads.throw (Or.inl rfl)
  | .break line, some e, h, p, hp, leave => by
    rw [compileStmt]
    obtain ⟨within, mark⟩ := leave e rfl
    exact (setLine_brings p _).seq (jumpOut_brings within mark)

theorem compileClauses_brings : ∀ (cs : List Clause) (exit : Option LoopExit) (done : Nat) (more : Bool),
    (∀ c ∈ cs, c.cond.Regular N) → (∀ c ∈ cs, c.body.Regular N) → ∀ p : Point, p.Scoped →
      Exits exit p → (done, p.now) ∈ p.awaited ++ p.passed →
        Brings p (compileClauses exit done more cs) p
  | [], _, _, _, _, _, p, _, _, _ => by
    rw [compileClauses]
    exact .nothing p _
  | ⟨c, b⟩ :: rest, exit, done, more, conds, bodies, p, hp, leave, mark => by
    rw [compileClauses]
    refine newLabel_brings p.now fun next fresh => ?_
    have h₁ := hp.marked ((next, p.now) :: p.awaited) p.passed
    have leave₁ : Exits exit (p.marked ((next, p.now) :: p.awaited) p.passed) :=
      leave.marked fun m mem => List.mem_cons_of_mem _ mem
    have inner := inScope_brings h₁ (.afterAll _ b.stmts)
      (compileStatements_brings b exit (bodies _ List.mem_cons_self) _ h₁ leave₁)
    have others := compileClauses_brings rest exit done more
      (fun c mem => conds c (List.mem_cons_of_mem _ mem))
      (fun c mem => bodies c (List.mem_cons_of_mem _ mem)) p hp leave mark
    have last := (placeLabel_done (p := p) fresh fun m mem => mem).seq others
    refine ((compileExpr_leaves c (.fixed 1) (conds _ List.mem_cons_self)).fixed _ h₁).seq ((emit_not h₁ 0).seq ?_)
    refine (jmpTrue_brings h₁ (by simp [Point.marked, Point.now])).seq (inner.seq ?_)
    intro s hs
    exact Leads.ite (fun _ => ((jmp_brings h₁ (List.mem_cons_of_mem _ mark)).seq last) s hs)
      fun _ => last s hs

theorem compileStatements_brings : ∀ (body : Block) (exit : Option LoopExit), body.Regular N →
    ∀ p : Point, p.Scoped → Exits exit p →
      Brings p (compileStatements exit body) (p.afterAll body.stmts)
  | ⟨stmts, none, line⟩, exit, h, p, hp, leave => by
    obtain ⟨inner, values⟩ := h
    rw [compileStatements]
    exact (compileStmts_brings stmts exit inner p hp leave).seq (.nothing _ _)
  | ⟨stmts, some ⟨vs, at'⟩, line⟩, exit, h, p, hp, leave => by
    obtain ⟨inner, values⟩ := h
    rw [compileStatements]
    exact (compileStmts_brings stmts exit inner p hp leave).seq (leaving_brings fun s hs =>
      multi_return_leads (compileMultiList_heaps vs (values _ rfl)) (hp.afterAll stmts) at' hs)

theorem compileStmts_brings : ∀ (stmts : List Stmt) (exit : Option LoopExit),
    (∀ s ∈ stmts, s.Regular N) → ∀ p : Point, p.Scoped → Exits exit p →
      Brings p (compileStmts exit stmts) (p.afterAll stmts)
  | [], _, _, p, _, _ => by
    rw [compileStmts]
    exact .nothing p _
  | stmt :: rest, exit, h, p, hp, leave => by
    rw [compileStmts]
    exact (compileStmt_brings stmt exit (h stmt List.mem_cons_self) p hp leave).seq
      (compileStmts_brings rest exit (fun s mem => h s (List.mem_cons_of_mem _ mem)) _ (hp.after stmt)
        (leave.grows (.after p stmt)))
end

end ScriptEngine.Compiler
