import ScriptEngine.Proofs.Compiler.Renaming
import ScriptEngine.Proofs.Compiler.Verified

/-!
# The numbers of nested functions

A counter gives every function of a chunk its id, and it is handed to the compiler of each nested
function and taken back from it. `Numbers c fs` says what a compiler action makes of the function bodies
`fs` that it compiles: units with consecutive ids, one `closure` instruction for each of its own
children, and the right body behind every id. Most actions compile no function at all (`Quiet`), the
others are put together from their parts, by induction over the syntax. So the ids of a chunk number its
function bodies in the order of the source (`compile_numbered`).
-/

set_option linter.dupNamespace false

namespace ScriptEngine

/-! ## The function bodies of a program -/

mutual
/-- The function bodies in an expression, in the order of the source. With `deep`, those that are
written inside another one follow it. -/
def Expr.functions (e : Expr) (deep : Bool) : List FunctionBody :=
  match e with
  | .nil _ | .boolean _ _ | .number _ _ | .string _ _ | .varargs _ | .name _ _ => []
  | .paren inner _ => inner.functions deep
  | .unary _ operand _ => operand.functions deep
  | .binary _ lhs rhs _ => lhs.functions deep ++ rhs.functions deep
  | .index table key _ => table.functions deep ++ key.functions deep
  | .field table _ _ => table.functions deep
  | .call callee args _ => callee.functions deep ++ exprsFunctions args deep
  | .methodCall object _ args _ => object.functions deep ++ exprsFunctions args deep
  | .function body => body.functions deep
  | .table fields _ => fieldsFunctions fields deep

def exprsFunctions (es : List Expr) (deep : Bool) : List FunctionBody :=
  match es with
  | [] => []
  | e :: rest => e.functions deep ++ exprsFunctions rest deep

def fieldsFunctions (fields : List TableField) (deep : Bool) : List FunctionBody :=
  match fields with
  | [] => []
  | .positional value :: rest => value.functions deep ++ fieldsFunctions rest deep
  | .named _ value :: rest => value.functions deep ++ fieldsFunctions rest deep
  | .keyed key value :: rest =>
    key.functions deep ++ (value.functions deep ++ fieldsFunctions rest deep)

/-- The function itself, and with `deep` what is written inside it. -/
def FunctionBody.functions (f : FunctionBody) (deep : Bool) : List FunctionBody :=
  match f with
  | ⟨params, isVararg, body, line⟩ =>
    ⟨params, isVararg, body, line⟩ :: if deep then body.functions deep else []

def Stmt.functions (stmt : Stmt) (deep : Bool) : List FunctionBody :=
  match stmt with
  | .local _ values _ => exprsFunctions values deep
  | .localFunction _ body _ | .function _ body _ => body.functions deep
  | .assign targets values _ => exprsFunctions targets deep ++ exprsFunctions values deep
  | .call call => call.functions deep
  | .block body => body.functions deep
  | .while cond body _ => cond.functions deep ++ body.functions deep
  | .repeat body cond _ => body.functions deep ++ cond.functions deep
  | .if clauses otherwise _ =>
    clausesFunctions clauses deep ++
      match otherwise with
      | some body => body.functions deep
      | none => []
  | .numericFor _ start limit step body _ =>
    start.functions deep ++ (limit.functions deep ++
      ((match step with
      | some step => step.functions deep
      | none => []) ++ body.functions deep))
  | .genericFor _ values body _ => exprsFunctions values deep ++ body.functions deep
  | .break _ => []

def clausesFunctions (clauses : List Clause) (deep : Bool) : List FunctionBody :=
  match clauses with
  | [] => []
  | ⟨cond, body⟩ :: rest => cond.functions deep ++ (body.functions deep ++ clausesFunctions rest deep)

def Block.functions (body : Block) (deep : Bool) : List FunctionBody :=
  match body with
  | ⟨stmts, ret, _⟩ =>
    stmtsFunctions stmts deep ++
      match ret with
      | some ⟨values, _⟩ => exprsFunctions values deep
      | none => []

def stmtsFunctions (stmts : List Stmt) (deep : Bool) : List FunctionBody :=
  match stmts with
  | [] => []
  | stmt :: rest => stmt.functions deep ++ stmtsFunctions rest deep
end

theorem exprsFunctions_single (e : Expr) : exprsFunctions [e] = e.functions := by
  funext deep
  rw [exprsFunctions, exprsFunctions, List.append_nil]

theorem FunctionBody.functions_own (f : FunctionBody) : f.functions false = [f] := by
  cases f
  rfl

theorem FunctionBody.functions_deep (f : FunctionBody) :
    f.functions true = f :: f.body.functions true := by
  cases f
  rw [functions]
  rfl

/-! ## The closures of a unit -/

/-- The id that a `closure` instruction names. -/
def Instruction.closure? (ins : Instruction) : Option Nat :=
  if ins.opcode? = some .closure then some ins.a.toNat else none

/-- The ids that the `closure` instructions of some code name, in order. -/
def closures (code : Array Instruction) : List Nat := code.toList.filterMap Instruction.closure?

theorem closures_push (code : Array Instruction) (ins : Instruction) :
    closures (code.push ins) = closures code ++ ins.closure?.toList := by
  rw [closures, Array.toList_push, List.filterMap_append, List.filterMap_cons, List.filterMap_nil]
  cases ins.closure? <;> rfl

theorem closures_eq (code : Array Instruction) :
    closures code = (code.toList.map Instruction.closure?).filterMap id := by
  simp [closures, List.filterMap_map]

/-- No instruction that waits for its address is a `closure`. -/
def Builder.SparesClosures (b : Builder) : Prop :=
  ∀ jump ∈ b.pending, ∃ ins, b.code[jump.1]? = some ins ∧ ins.opcode? ≠ some .closure

theorem Builder.SparesClosures.of_empty {b : Builder} (none' : b.pending = #[]) : b.SparesClosures := by
  intro jump mem
  rw [none'] at mem
  simp at mem

theorem Builder.SparesClosures.emit {b : Builder} (spares : b.SparesClosures) (ins : Instruction)
    (line : Nat) : (b.emit ins line).SparesClosures := by
  intro jump mem
  obtain ⟨there, found, other⟩ := spares jump mem
  obtain ⟨inside, -⟩ := Array.getElem?_eq_some_iff.1 found
  exact ⟨there, by rw [Builder.emit, Array.getElem?_push_lt inside, ← found,
    Array.getElem?_eq_getElem inside], other⟩

/-- Filling in the addresses of jumps does not touch the closures. -/
theorem Builder.finish_closures {b : Builder} {id : Nat} {name source : String} {u : CodeUnit}
    (jumps : b.SparesClosures)
    (finished : b.finish id name source = .ok u) : closures u.code = closures b.code := by
  have words := (finish_eq_ok finished).2.2.1
  have same : u.code.toList.map Instruction.closure? = b.code.toList.map Instruction.closure? := by
    refine List.ext_getElem? fun ip => ?_
    rw [List.getElem?_map, List.getElem?_map, Array.getElem?_toList, Array.getElem?_toList, words ip,
      Option.map_map]
    cases here : b.code[ip]? with
    | none => rfl
    | some ins =>
      simp only [Option.map_some, Function.comp_apply, patched]
      cases target : jumpTo? ip b.pending.toList with
      | none => rfl
      | some label =>
        obtain ⟨jump, found, other⟩ := jumps _ (Array.mem_def.2 (mem_of_jumpTo? target))
        rw [here] at found
        cases found
        exact congrArg some ((if_neg other).trans (if_neg other).symm)
  rw [closures_eq, closures_eq, same]

theorem CodeUnit.walkAll_append (us vs : List CodeUnit) :
    walkAll (us ++ vs) = walkAll us ++ walkAll vs := by
  induction us with
  | nil => rfl
  | cons u rest ih => rw [List.cons_append, walkAll, walkAll, ih, List.append_assoc]

theorem CodeUnit.sublist_walkAll (us : List CodeUnit) : us.Sublist (walkAll us) := by
  induction us with
  | nil => exact List.Sublist.refl _
  | cons u rest ih =>
    rw [walkAll, walk_eq, List.cons_append]
    exact (ih.trans (List.sublist_append_right _ _)).cons_cons u

/-- Finishing does not fail for the number of functions. -/
theorem Builder.finish_error_ne {b : Builder} {id : Nat} {name source : String} {e : CompileError}
    (failed : b.finish id name source = .error e) : e ≠ .tooManyFunctions := by
  rcases finish_error failed with ⟨-, rfl⟩ | ⟨jump, mem, missing⟩
  · exact CompileError.noConfusion
  · unfold finish at failed
    split at failed
    · cases failed
      exact CompileError.noConfusion
    · rw [← Array.foldlM_toList, foldlM_resolve_error b name _ _ ⟨jump, Array.mem_def.1 mem, missing⟩]
        at failed
      cases failed
      exact CompileError.noConfusion

namespace Compiler

/-! ## What a body becomes -/

/-- `v` is the unit that the compiler made of `f`, under the next id that it had: it took `v` into the
unit around it and emitted the instruction that makes a closure of it. -/
def CompiledFrom (f : FunctionBody) (v : CodeUnit) : Prop :=
  ∃ (s : State) (name : String) (t : State), (compileFunction f name).run s = .ok ((), t) ∧
    v.id = s.nextId ∧
    t.builder = (s.builder.addChild v).emit (.make .closure v.id.toUInt16 0) s.line

/-- The functions of `body` are those of the unit `v` that is compiled from it: each `closure`
instruction names a child of its own, that of the function at its place in the source. -/
structure Houses (body : Block) (v : CodeUnit) : Prop where
  /-- The instructions find all children, in order. -/
  found : (closures v.code).map v.child? = v.children.map some
  /-- No two instructions name the same child. -/
  once : (closures v.code).Nodup
  bodies : List.Forall₂ CompiledFrom (body.functions false) v.children

theorem Houses.of_ids {body : Block} {v : CodeUnit} {first count : Nat}
    (named : closures v.code = v.children.map CodeUnit.id)
    (ids : (CodeUnit.walkAll v.children).map CodeUnit.id = List.range' first count)
    (bodies : List.Forall₂ CompiledFrom (body.functions false) v.children) : Houses body v := by
  have distinct : (v.children.map CodeUnit.id).Nodup := by
    refine List.Nodup.sublist ((CodeUnit.sublist_walkAll v.children).map CodeUnit.id) ?_
    rw [ids]
    exact List.nodup_range'
  refine ⟨?_, named ▸ distinct, bodies⟩
  rw [named, List.map_map]
  refine List.map_congr_left fun c mem => ?_
  cases found : v.child? c.id with
  | none => exact absurd (beq_self_eq_true c.id) (List.find?_eq_none.1 found c mem)
  | some d =>
    have same : d.id = c.id := by simpa using List.find?_some found
    have here : d ∈ v.children := List.mem_of_find?_eq_some found
    rw [Function.comp_apply, found, List.inj_on_of_nodup_map distinct here mem same]

/-- `v` is compiled from `f`, and so are the functions inside. -/
def Embodies (f : FunctionBody) (v : CodeUnit) : Prop := CompiledFrom f v ∧ Houses f.body v

/-- The counter is past the ids of the children, and not beyond its limit. -/
structure State.Counted (s : State) : Prop where
  children : ∀ v ∈ s.builder.children, v.id < s.nextId
  jumps : s.builder.SparesClosures
  limit : s.nextId ≤ 65535

/-- From `s` to `t`, the functions `fs` became `units` and what is nested in them. -/
structure Added (s t : State) (fs : Bool → List FunctionBody) (units : List CodeUnit) : Prop where
  counted : t.Counted
  id : t.id = s.id
  nextId : t.nextId = s.nextId + (fs true).length
  children : t.builder.children = units.reverse ++ s.builder.children
  closures : closures t.builder.code = closures s.builder.code ++ units.map CodeUnit.id
  ids : (CodeUnit.walkAll units).map CodeUnit.id = List.range' s.nextId (fs true).length
  own : List.Forall₂ CompiledFrom (fs false) units
  all : List.Forall₂ Embodies (fs true) (CodeUnit.walkAll units)

variable {α β : Type} {s t u : State} {fs gs : Bool → List FunctionBody}

theorem Added.append {us vs : List CodeUnit} (first : Added s t fs us) (second : Added t u gs vs) :
    Added s u (fun deep => fs deep ++ gs deep) (us ++ vs) where
  counted := second.counted
  id := second.id.trans first.id
  nextId := by rw [second.nextId, first.nextId, List.length_append, Nat.add_assoc]
  children := by
    rw [second.children, first.children, List.reverse_append, List.append_assoc]
  closures := by rw [second.closures, first.closures, List.map_append, List.append_assoc]
  ids := by
    rw [CodeUnit.walkAll_append, List.map_append, first.ids, second.ids, first.nextId,
      List.range'_append_1, List.length_append]
  own := List.rel_append first.own second.own
  all := by
    rw [CodeUnit.walkAll_append]
    exact List.rel_append first.all second.all

/-- `c` compiles the functions `fs`, and it runs out of ids only if there are too many of them. -/
def Numbers (c : Compiler α) (fs : Bool → List FunctionBody) : Prop :=
  ∀ s : State, s.Counted →
    Leads (fun e => e = .tooManyFunctions → 65535 < s.nextId + (fs true).length) c s
      fun _ t => ∃ units, Added s t fs units

/-- `c` compiles no function. -/
abbrev Quiet (c : Compiler α) : Prop := Numbers c fun _ => []

/-! ## Actions one after another -/

theorem Leads.weaken {E F : CompileError → Prop} {c : Compiler α} {Q : α → State → Prop}
    (h : Leads E c s Q) (weaker : ∀ e, E e → F e) : Leads F c s Q := by
  unfold Leads at h ⊢
  split at h
  · exact h
  · exact weaker _ h

theorem Numbers.seq {c : Compiler α} {f : α → Compiler β} (first : Numbers c fs)
    (second : ∀ a, Numbers (f a) gs) : Numbers (c >>= f) fun deep => fs deep ++ gs deep := by
  intro s hs
  refine ((first s hs).weaken fun e many out => ?_).seq ?_
  · have := many out
    rw [List.length_append]
    omega
  · rintro a t ⟨us, ht⟩
    refine ((second a t ht.counted).weaken fun e many out => ?_).mono ?_
    · have := many out
      rw [ht.nextId] at this
      rw [List.length_append]
      omega
    · rintro b u ⟨vs, hu⟩
      exact ⟨us ++ vs, ht.append hu⟩

/-- Nothing is compiled in the first of two actions. -/
theorem Quiet.seq {c : Compiler α} {f : α → Compiler β} (first : Quiet c)
    (second : ∀ a, Numbers (f a) gs) : Numbers (c >>= f) gs := Numbers.seq first second

/-- Nothing is compiled in the second of two actions. -/
theorem Numbers.last {c : Compiler α} {f : α → Compiler β} (first : Numbers c fs)
    (second : ∀ a, Quiet (f a)) : Numbers (c >>= f) fs := by
  have both := first.seq second
  simpa only [List.append_nil] using both

theorem Numbers.ite {p : Prop} [Decidable p] {c d : Compiler α} (yes : p → Numbers c fs)
    (no : ¬p → Numbers d fs) : Numbers (if p then c else d) fs := by
  split
  · exact yes ‹_›
  · exact no ‹_›

/-- What an action does may depend on the state. -/
theorem Numbers.get {f : State → Compiler β} (next : ∀ s, Numbers (f s) fs) :
    Numbers (do f (← get)) fs :=
  fun s hs => Leads.bind (Leads.get (next s s hs))

theorem Numbers.pure (a : α) : Quiet (Pure.pure a : Compiler α) := fun _ hs =>
  Leads.pure ⟨[], hs, rfl, rfl, rfl, (List.append_nil _).symm, rfl, .nil, .nil⟩

theorem Numbers.throw {e : CompileError} (other : e ≠ .tooManyFunctions) :
    Numbers (MonadExcept.throw e : Compiler α) fs := fun _ _ => Leads.throw fun out => absurd out other

/-- An action that fails for another reason, or keeps the functions and the jumps that there are. -/
theorem Numbers.of_leads {c : Compiler α}
    (h : ∀ s : State, s.Counted → Leads (· ≠ .tooManyFunctions) c s fun _ t => t.Counted ∧ t.id = s.id ∧
      t.nextId = s.nextId ∧ t.builder.children = s.builder.children ∧
      closures t.builder.code = closures s.builder.code) : Quiet c := fun s hs =>
  ((h s hs).weaken fun _ other out => absurd out other).mono fun _ _ ⟨counted, id, nextId, children, same⟩ =>
    ⟨[], counted, id, nextId, children, same.trans (List.append_nil _).symm, rfl, .nil, .nil⟩

/-- An action that only changes the compiler's account of what is live. -/
theorem Numbers.modify {f : State → State}
    (same : ∀ s, ((f s).builder, (f s).id, (f s).nextId) = (s.builder, s.id, s.nextId)) :
    Quiet (modify f : Compiler PUnit) := .of_leads fun s hs => by
  obtain ⟨builder, id, nextId⟩ : (f s).builder = s.builder ∧ (f s).id = s.id ∧ (f s).nextId = s.nextId := by
    simpa using same s
  exact Leads.modify ⟨⟨by rw [builder, nextId]; exact hs.children, by rw [builder]; exact hs.jumps,
    nextId ▸ hs.limit⟩, id,
    nextId, by rw [builder], by rw [builder]⟩

/-! ## Emission -/

theorem apply_quiet (op : Opcode) (a b : Nat) (ins : Instruction) : Quiet (apply op a b ins) := by
  refine .of_leads fun s hs => Leads.bind (Leads.get ?_)
  exact Leads.ite (fun _ => Leads.throw CompileError.noConfusion) fun _ =>
    Leads.set ⟨⟨hs.children, hs.jumps, hs.limit⟩, rfl, rfl, rfl, rfl⟩

theorem closures_emit (b : Builder) (op : Opcode) (x : UInt16) (y : UInt8) (line : Nat)
    (other : op ≠ .closure) : closures (b.emit (.make op x y) line).code = closures b.code := by
  have none' : (Instruction.make op x y).closure? = none := if_neg (by simpa using other)
  rw [Builder.emit, closures_push, none', Option.toList_none, List.append_nil]

/-- What emission adds to the code, if it does not fail. -/
theorem emit_grows (op : Opcode) (a b : Nat) (s : State) :
    Leads (· ≠ .tooManyFunctions) (emit op a b) s fun _ t =>
      t.builder = s.builder.emit (.make op a.toUInt16 b.toUInt8) s.line ∧ t.id = s.id ∧
        t.nextId = s.nextId := by
  refine Leads.ite (fun _ => Leads.bind (Leads.throw CompileError.noConfusion)) fun _ => ?_
  refine Leads.ite (fun _ => Leads.bind (Leads.throw CompileError.noConfusion)) fun _ => ?_
  refine Leads.bind (Leads.bind (Leads.get ?_))
  exact Leads.ite (fun _ => Leads.throw CompileError.noConfusion) fun _ =>
    Leads.set (Leads.modify ⟨rfl, rfl, rfl⟩)

theorem emit_quiet (op : Opcode) (a b : Nat) (other : decide (op = .closure) = false) :
    Quiet (emit op a b) := .of_leads fun s hs =>
  (emit_grows op a b s).mono fun _ t ⟨builder, id, nextId⟩ =>
    ⟨⟨by rw [builder, nextId]; exact hs.children, builder ▸ hs.jumps.emit _ _, nextId ▸ hs.limit⟩, id, nextId,
      by rw [builder]; rfl,
      by rw [builder, closures_emit _ _ _ _ _ (of_decide_eq_false other)]⟩

theorem emitJump_quiet (op : Opcode) (peek : Bool) (label : Nat) (other : decide (op = .closure) = false) :
    Quiet (emitJump op peek label) := by
  refine (apply_quiet _ _ _ _).seq fun _ => .of_leads fun s hs => Leads.modify
    ⟨⟨hs.children, fun jump mem => ?_, hs.limit⟩, rfl, rfl, rfl, closures_emit _ _ _ _ s.line (of_decide_eq_false other)⟩
  rcases Array.mem_push.1 mem with mem | rfl
  · exact hs.jumps.emit _ s.line jump mem
  · exact ⟨_, Array.getElem?_push_size, by simpa using other⟩

theorem newLabel_quiet : Quiet newLabel := .of_leads fun _ hs => ⟨⟨hs.children, hs.jumps, hs.limit⟩, rfl, rfl, rfl, rfl⟩

theorem placeLabel_quiet (label : Nat) : Quiet (placeLabel label) := .of_leads fun _ hs =>
  Leads.modify ⟨⟨hs.children, hs.jumps, hs.limit⟩, rfl, rfl, rfl, rfl⟩

theorem setLine_quiet (line : Nat) : Quiet (setLine line) := .modify fun _ => rfl

theorem addConstant_quiet (v : Value) : Quiet (addConstant v) := by
  refine .of_leads fun s hs => Leads.bind (Leads.get (Leads.bind (Leads.lift (fun r added => ?_) ?_)))
  · refine Leads.bind (Leads.set (Leads.pure ?_))
    unfold Builder.addConstant at added
    split at added
    · cases added
      exact ⟨⟨hs.children, hs.jumps, hs.limit⟩, rfl, rfl, rfl, rfl⟩
    · split at added
      · cases added
        exact ⟨⟨hs.children, hs.jumps, hs.limit⟩, rfl, rfl, rfl, rfl⟩
      · cases added
  · rintro e failed rfl
    unfold Builder.addConstant at failed
    split at failed
    · cases failed
    · split at failed <;> cases failed

theorem loadConstant_quiet (v : Value) : Quiet (loadConstant v) :=
  (addConstant_quiet v).seq fun i => emit_quiet .loadK i 0 rfl

theorem loadNil_quiet (n : Nat) : Quiet (loadNil n) := by
  induction n with
  | zero => exact .pure _
  | succ n ih => exact (loadConstant_quiet .nil).seq fun _ => ih

theorem pop_quiet (n : Nat) : Quiet (pop n) :=
  Numbers.ite (fun _ => .pure _) fun _ => emit_quiet .popStack n 0 rfl

theorem getSlot_quiet (slot : Nat) : Quiet (getSlot slot) := .get fun _ => emit_quiet .getStack _ 0 rfl

theorem putSlot_quiet (slot : Nat) : Quiet (putSlot slot) := .get fun _ => emit_quiet .putStack _ 0 rfl

theorem scope_quiet : Quiet scope := .get fun _ => .pure _

theorem bindLocals_quiet (names : List String) : Quiet (bindLocals names) :=
  (emit_quiet .closeVars _ 0 rfl).seq fun _ => .modify fun _ => rfl

theorem release_quiet (outer : Scope) : Quiet (release outer) := .get fun _ =>
  Numbers.ite (fun _ => (emit_quiet .popClosed _ 0 rfl).seq fun _ => pop_quiet _) fun _ => pop_quiet _

theorem closeScope_quiet (outer : Scope) : Quiet (closeScope outer) :=
  (release_quiet outer).seq fun _ => .modify fun _ => rfl

theorem inScope_numbers {c : Compiler Unit} (h : Numbers c fs) : Numbers (inScope c) fs :=
  scope_quiet.seq fun outer => h.last fun _ => closeScope_quiet outer

theorem leaving_numbers {c : Compiler Unit} (h : Numbers c fs) : Numbers (leaving c) fs :=
  .get fun _ => h.last fun _ => .modify fun _ => rfl

theorem jumpOut_quiet (outer : Scope) (label : Nat) : Quiet (jumpOut outer label) :=
  leaving_numbers ((release_quiet outer).seq fun _ => emitJump_quiet .jmp false label rfl)

theorem readVar_quiet (name : String) : Quiet (readVar name) := by
  refine .get fun s => ?_
  cases s.resolve name with
  | slot slot => exact getSlot_quiet slot
  | upvalue pos => exact emit_quiet .getUpval pos 0 rfl
  | global => exact (addConstant_quiet _).seq fun i => emit_quiet .getGlobal i 0 rfl

theorem writeVar_quiet (name : String) : Quiet (writeVar name) := by
  refine .get fun s => ?_
  cases s.resolve name with
  | slot slot => exact putSlot_quiet slot
  | upvalue pos => exact emit_quiet .putUpval pos 0 rfl
  | global => exact (addConstant_quiet _).seq fun i => emit_quiet .putGlobal i 0 rfl

theorem adjustMulti_quiet (arity : Arity) : Quiet (adjustMulti arity) := by
  cases arity with
  | multi => exact .pure _
  | fixed n => exact emit_quiet .popVarArgs n 1 rfl

theorem finishCall_quiet (args : Nat) (arity : Arity) : Quiet (finishCall args arity) := by
  cases arity with
  | multi => exact emit_quiet .call args 0 rfl
  | fixed n =>
    exact Numbers.ite (fun _ => emit_quiet .call args n rfl) fun _ =>
      (emit_quiet .call args 0 rfl).seq fun _ => adjustMulti_quiet _

theorem adjustSingle_quiet (arity : Arity) : Quiet (adjustSingle arity) := by
  cases arity with
  | multi => exact .pure _
  | fixed n =>
    cases n with
    | zero => exact pop_quiet 1
    | succ n => exact loadNil_quiet n

theorem store_quiet (place : Place) : Quiet (store place) := by
  cases place with
  | «variable» name => exact writeVar_quiet name
  | entry slot =>
    exact (getSlot_quiet _).seq fun _ => (getSlot_quiet _).seq fun _ => (emit_quiet .getStack 3 0 rfl).seq
      fun _ => (emit_quiet .putTable 0 0 rfl).seq fun _ => pop_quiet 1

/-- The same quiet action for each element of a list. -/
theorem forM_quiet {γ : Type} {f : γ → Compiler Unit} (h : ∀ x, Quiet (f x)) (xs : List γ) :
    Quiet (xs.forM f) := by
  induction xs with
  | nil => exact .pure _
  | cons x rest ih => exact (h x).seq fun _ => ih

theorem loopGuard_quiet (v limit step : Nat) : Quiet (loopGuard v limit step) := by
  refine (loadConstant_quiet _).seq fun _ => (getSlot_quiet _).seq fun _ => (emit_quiet .less 0 0 rfl).seq
    fun _ => (getSlot_quiet _).seq fun _ => (getSlot_quiet _).seq fun _ => (emit_quiet .lessEq 0 0 rfl).seq
    fun _ => (emit_quiet .and 0 0 rfl).seq fun _ => ?_
  exact (getSlot_quiet _).seq fun _ => (loadConstant_quiet _).seq fun _ => (emit_quiet .less 0 0 rfl).seq
    fun _ => (getSlot_quiet _).seq fun _ => (getSlot_quiet _).seq fun _ => (emit_quiet .lessEq 0 0 rfl).seq
    fun _ => (emit_quiet .and 0 0 rfl).seq fun _ => emit_quiet .or 0 0 rfl

theorem readPath_quiet (root : String) (fields : List String) : Quiet (readPath root fields) :=
  (readVar_quiet root).seq fun _ => forM_quiet (fun _ =>
    (loadConstant_quiet _).seq fun _ => emit_quiet .getTable 0 0 rfl) fields

theorem binary_numbers (op : BinaryOp) {lhs rhs : Compiler Unit} (left : Numbers lhs fs)
    (right : Numbers rhs gs) : Numbers (binary op lhs rhs) fun deep => fs deep ++ gs deep := by
  have strict : ∀ (opcode : Opcode) (negated : Bool), decide (opcode = .closure) = false → Numbers
      (do lhs; rhs; emit opcode 0 0; if negated then emit .not 0 0) fun deep => fs deep ++ gs deep :=
    fun opcode negated other => left.seq fun _ => right.last fun _ => (emit_quiet opcode 0 0 other).seq
      fun _ => Numbers.ite (fun _ => emit_quiet .not 0 0 rfl) fun _ => .pure _
  cases op with
  | and =>
    refine newLabel_quiet.seq fun takeRhs => newLabel_quiet.seq fun done => left.seq fun _ => ?_
    exact (emitJump_quiet .jmpTrue true takeRhs rfl).seq fun _ => (emitJump_quiet .jmp false done rfl).seq
      fun _ => (placeLabel_quiet _).seq fun _ => (pop_quiet 1).seq fun _ =>
      right.last fun _ => placeLabel_quiet done
  | or =>
    refine newLabel_quiet.seq fun done => left.seq fun _ => ?_
    exact (emitJump_quiet .jmpTrue true done rfl).seq fun _ => (pop_quiet 1).seq fun _ =>
      right.last fun _ => placeLabel_quiet done
  | _ => exact strict _ _ rfl

/-! ## Function bodies -/

theorem Leads.ran {E : CompileError → Prop} {c : Compiler α} {Q : α → State → Prop}
    (h : Leads E c s Q) : Leads E c s fun a t => c.run s = .ok (a, t) ∧ Q a t := by
  unfold Leads at h ⊢
  split
  · rename_i a t run
    rw [run] at h
    exact ⟨run, h⟩
  · rename_i e run
    rw [run] at h
    exact h

theorem closure?_closure {id : Nat} (small : id < 65536) :
    (Instruction.make .closure id.toUInt16 0).closure? = some id := by
  have fits : id.toUInt16.toNat = id := by
    rw [Nat.toUInt16, UInt16.toNat_ofNat']
    omega
  rw [Instruction.closure?, Instruction.opcode?_make, if_pos rfl]
  exact congrArg some fits

/-- The code of a body as a unit of its own. -/
theorem finish_numbers {c : Compiler Unit} {body : Block} (code : Numbers c body.functions) {s : State}
    (empty : s.builder.code = #[] ∧ s.builder.pending = #[] ∧ s.builder.children = [])
    (limit : s.nextId ≤ 65535) {u : CodeUnit}
    (ran : c.run s = .ok ((), t)) (finished : t.builder.finish t.id t.name t.source = .ok u) :
    u.id = s.id ∧ t.nextId = s.nextId + (body.functions true).length ∧ t.nextId ≤ 65535 ∧ Houses body u ∧
      (CodeUnit.walkAll u.children).map CodeUnit.id =
        List.range' s.nextId (body.functions true).length ∧
      List.Forall₂ Embodies (body.functions true) (CodeUnit.walkAll u.children) := by
  obtain ⟨noCode, noJumps, noChildren⟩ := empty
  have counted : s.Counted := ⟨by simp [noChildren], .of_empty noJumps, limit⟩
  obtain ⟨units, added⟩ := (code s counted).ok ran
  have id := (Builder.finish_eq_ok finished).2.2.2.1
  have children : u.children = units := by
    rw [(Builder.finish_eq_ok finished).2.2.2.2.2.2.2.1, added.children, noChildren, List.append_nil,
      List.reverse_reverse]
  have named : closures u.code = u.children.map CodeUnit.id := by
    rw [Builder.finish_closures added.counted.jumps finished, added.closures, noCode, children]
    rfl
  subst children
  exact ⟨id.trans added.id, added.nextId, added.counted.limit, .of_ids named added.ids added.own, added.ids, added.all⟩

theorem function_numbers (params : List String) (isVararg : Bool) {body : Block} (line : Nat)
    (name : String) (statements : Numbers (compileStatements none body) body.functions) :
    Numbers (compileFunction ⟨params, isVararg, body, line⟩ name)
      (FunctionBody.functions ⟨params, isVararg, body, line⟩) := by
  intro s hs
  have deep : (FunctionBody.functions ⟨params, isVararg, body, line⟩ true).length =
      (body.functions true).length + 1 := by
    rw [FunctionBody.functions_deep, List.length_cons]
  have code : Numbers (do
      if !params.isEmpty then
        emit .popVarArgs params.length 0
        bindLocals params
      compileStatements none body
      emit .ret 0 0) body.functions := by
    have ends := statements.last fun _ => emit_quiet .ret 0 0 rfl
    exact Numbers.ite (fun _ => (emit_quiet .popVarArgs _ 0 rfl).seq fun _ =>
      (bindLocals_quiet params).seq fun _ => ends) fun _ => ends
  have added : Leads (fun e => e = .tooManyFunctions → 65535 < s.nextId + ((body.functions true).length + 1))
      (compileFunction ⟨params, isVararg, body, line⟩ name) s fun _ t => ∃ u, u.id = s.nextId ∧
        u.id < 65536 ∧ t.builder = (s.builder.addChild u).emit (.make .closure u.id.toUInt16 0) s.line ∧
        t.id = s.id ∧ t.nextId = s.nextId + ((body.functions true).length + 1) ∧ t.nextId ≤ 65535 ∧
        Houses body u ∧
        (CodeUnit.walkAll u.children).map CodeUnit.id =
          List.range' (s.nextId + 1) (body.functions true).length ∧
        List.Forall₂ Embodies (body.functions true) (CodeUnit.walkAll u.children) := by
    refine Leads.bind (Leads.get ?_)
    refine Leads.ite (fun many => Leads.bind (Leads.throw fun _ => by omega)) fun few => ?_
    refine Leads.ite (fun _ => Leads.bind (Leads.throw (fun out => CompileError.noConfusion out))) fun _ => ?_
    have start : (({ s with nextId := s.nextId + 1 } : State).child name s.nextId line params.length
        isVararg).Counted := ⟨by simp [State.child], .of_empty rfl, by simp only [State.child]; omega⟩
    refine Leads.bind (Leads.lift (fun r ran => ?_) fun e failed out => ?_)
    · obtain ⟨⟨⟩, child⟩ := r
      refine Leads.bind (Leads.lift (fun u finished => ?_) fun e failed out =>
        absurd out (Builder.finish_error_ne failed))
      obtain ⟨id, next, limit, closes, ids, all⟩ := finish_numbers code ⟨rfl, rfl, rfl⟩ start.limit ran finished
      have id : u.id = s.nextId := id
      have next : child.nextId = s.nextId + 1 + (body.functions true).length := next
      refine Leads.bind (Leads.set ?_)
      refine ((emit_grows .closure s.nextId 0 _).weaken fun e other out => absurd out other).mono ?_
      rintro - t ⟨builder, same, nextId⟩
      have after : t.nextId = child.nextId := nextId
      exact ⟨u, id, by omega, id ▸ builder, same, by omega, by omega, closes, ids, all⟩
    · have many := (code _ start).error failed out
      simp only [State.child] at many
      omega
  rw [deep]
  refine (Leads.ran added).mono ?_
  rintro ⟨⟩ t ⟨ran, u, id, small, builder, same, nextId, limit, closes, ids, all⟩
  have own : CompiledFrom ⟨params, isVararg, body, line⟩ u := ⟨s, name, t, ran, id, builder⟩
  have greatest : ∀ v ∈ s.builder.children, v.id < u.id := id ▸ hs.children
  have children : t.builder.children = u :: s.builder.children := by
    rw [builder]
    exact Builder.insertChild_greatest greatest
  refine ⟨[u], ⟨fun v mem => ?_, ?_, limit⟩, same, nextId.trans (by rw [deep]), children, ?_, ?_, ?_, ?_⟩
  · rw [children] at mem
    rcases List.mem_cons.1 mem with rfl | mem
    · omega
    · have := hs.children v mem
      omega
  · rw [builder]
    exact Builder.SparesClosures.emit (b := s.builder.addChild u) hs.jumps _ _
  · rw [builder, Builder.emit, closures_push, closure?_closure small]
    rfl
  · rw [deep, CodeUnit.walkAll, CodeUnit.walkAll, List.append_nil, CodeUnit.walk_eq, List.map_cons, ids, id,
      List.range'_succ]
  · rw [FunctionBody.functions_own]
    exact .cons own .nil
  · rw [FunctionBody.functions_deep, CodeUnit.walkAll, CodeUnit.walkAll, List.append_nil, CodeUnit.walk_eq]
    exact .cons ⟨own, closes⟩ all

/-! ## Statements from their parts -/

theorem assign_numbers {targets : Compiler (List Place)} {values : Compiler Unit}
    (htargets : Numbers targets fs) (hvalues : Numbers values gs) :
    Numbers (do
      let start := (← get).depth
      let places ← targets
      let temporaries := (← get).depth - start
      values
      places.reverse.forM store
      pop temporaries) fun deep => fs deep ++ gs deep :=
  .get fun _ => htargets.seq fun _ => .get fun _ => hvalues.last fun _ =>
    (forM_quiet store_quiet _).seq fun _ => pop_quiet _

theorem whileCode_numbers {cond : Compiler Unit} {body : Option LoopExit → Compiler Unit}
    (test : Numbers cond fs) (bodies : ∀ exit, Numbers (body exit) gs) :
    Numbers (whileCode cond body) fun deep => fs deep ++ gs deep := by
  refine newLabel_quiet.seq fun start => newLabel_quiet.seq fun done => (placeLabel_quiet start).seq
    fun _ => test.seq fun _ => ?_
  refine (emit_quiet .not 0 0 rfl).seq fun _ => (emitJump_quiet .jmpTrue false done rfl).seq fun _ =>
    scope_quiet.seq fun _ => (inScope_numbers (bodies _)).last fun _ => ?_
  exact (emitJump_quiet .jmp false start rfl).seq fun _ => placeLabel_quiet done

theorem repeatCode_numbers {cond : Compiler Unit} {body : Option LoopExit → Compiler Unit}
    (bodies : ∀ exit, Numbers (body exit) fs) (test : Numbers cond gs) :
    Numbers (repeatCode cond body) fun deep => fs deep ++ gs deep := by
  refine newLabel_quiet.seq fun start => newLabel_quiet.seq fun exit => newLabel_quiet.seq fun done =>
    (placeLabel_quiet start).seq fun _ => scope_quiet.seq fun outer => (bodies _).seq fun _ =>
    test.last fun _ => ?_
  exact (emitJump_quiet .jmpTrue false done rfl).seq fun _ => (jumpOut_quiet outer start).seq fun _ =>
    (placeLabel_quiet done).seq fun _ => (closeScope_quiet outer).seq fun _ => placeLabel_quiet exit

theorem numericForCode_numbers {hs : Bool → List FunctionBody} {is : Bool → List FunctionBody}
    {start limit step : Compiler Unit} (var : String) {body : Option LoopExit → Compiler Unit}
    (hstart : Numbers start fs) (hlimit : Numbers limit gs) (hstep : Numbers step hs)
    (bodies : ∀ exit, Numbers (body exit) is) :
    Numbers (numericForCode var start limit step body) fun deep =>
      fs deep ++ (gs deep ++ (hs deep ++ is deep)) := by
  refine scope_quiet.seq fun around => hstart.seq fun _ => hlimit.seq fun _ => hstep.seq fun _ =>
    (emit_quiet .forPrep 0 0 rfl).seq fun _ => scope_quiet.seq fun control => ?_
  refine newLabel_quiet.seq fun top => newLabel_quiet.seq fun exit => (placeLabel_quiet top).seq fun _ =>
    (loopGuard_quiet _ _ _).seq fun _ => (emit_quiet .not 0 0 rfl).seq fun _ =>
    (emitJump_quiet .jmpTrue false exit rfl).seq fun _ => (getSlot_quiet _).seq fun _ =>
    (bindLocals_quiet [var]).seq fun _ => (bodies _).last fun _ => ?_
  exact (closeScope_quiet control).seq fun _ => (getSlot_quiet _).seq fun _ => (getSlot_quiet _).seq
    fun _ => (emit_quiet .add 0 0 rfl).seq fun _ => (putSlot_quiet _).seq fun _ =>
    (emitJump_quiet .jmp false top rfl).seq fun _ => (placeLabel_quiet exit).seq fun _ =>
    closeScope_quiet around

theorem genericForCode_numbers {values : Compiler Unit} (names : List String)
    {body : Option LoopExit → Compiler Unit} (hvalues : Numbers values fs)
    (bodies : ∀ exit, Numbers (body exit) gs) :
    Numbers (genericForCode names values body) fun deep => fs deep ++ gs deep := by
  refine scope_quiet.seq fun around => hvalues.seq fun _ => scope_quiet.seq fun control => ?_
  refine newLabel_quiet.seq fun top => newLabel_quiet.seq fun run => newLabel_quiet.seq fun exit =>
    (placeLabel_quiet top).seq fun _ => (getSlot_quiet _).seq fun _ => (getSlot_quiet _).seq fun _ =>
    (getSlot_quiet _).seq fun _ => (emit_quiet .call 2 _ rfl).seq fun _ =>
    (bindLocals_quiet names).seq fun _ => .get fun _ => ?_
  refine (getSlot_quiet _).seq fun _ => (putSlot_quiet _).seq fun _ => (getSlot_quiet _).seq fun _ =>
    (loadConstant_quiet .nil).seq fun _ => (emit_quiet .eq 0 0 rfl).seq fun _ =>
    (emit_quiet .not 0 0 rfl).seq fun _ => (emitJump_quiet .jmpTrue false run rfl).seq fun _ =>
    (jumpOut_quiet control exit).seq fun _ => (placeLabel_quiet run).seq fun _ =>
    (bodies _).last fun _ => ?_
  exact (closeScope_quiet control).seq fun _ => (emitJump_quiet .jmp false top rfl).seq fun _ =>
    (placeLabel_quiet exit).seq fun _ => closeScope_quiet around

theorem returnCode_numbers {values : Compiler Unit} (hvalues : Numbers values fs) (line count : Nat) :
    Numbers (returnCode line count values) fs := by
  refine leaving_numbers ((setLine_quiet line).seq fun _ => hvalues.last fun _ =>
    (setLine_quiet line).seq fun _ => .get fun s => ?_)
  exact Numbers.ite (fun _ => (emit_quiet .popClosed _ 0 rfl).seq fun _ => emit_quiet .ret count 0 rfl)
    fun _ => emit_quiet .ret count 0 rfl

/-! ## The induction -/

theorem Numbers.line {c : Compiler Unit} (h : Numbers c fs) (line : Nat) :
    Numbers (do setLine line; c) fs := (setLine_quiet line).seq fun _ => h

theorem Numbers.adjusted {c : Compiler Unit} (h : Numbers c fs) (line : Nat) (arity : Arity) :
    Numbers (do setLine line; c; adjustSingle arity) fs :=
  .line (h.last fun _ => adjustSingle_quiet arity) line

mutual
theorem compileExpr_numbers : ∀ (e : Expr) (arity : Arity), Numbers (compileExpr e arity) e.functions
  | .nil line, arity => by
    rw [compileExpr]
    exact (loadConstant_quiet _).adjusted line arity
  | .boolean b line, arity => by
    rw [compileExpr]
    exact (loadConstant_quiet _).adjusted line arity
  | .number x line, arity => by
    rw [compileExpr]
    exact (loadConstant_quiet _).adjusted line arity
  | .string s line, arity => by
    rw [compileExpr]
    exact (loadConstant_quiet _).adjusted line arity
  | .varargs line, arity => by
    rw [compileExpr]
    exact Numbers.line (.get fun s => .ite (fun _ => (getSlot_quiet 0).seq fun _ => adjustMulti_quiet arity)
      fun _ => .throw CompileError.noConfusion) line
  | .name name line, arity => by
    rw [compileExpr]
    exact (readVar_quiet name).adjusted line arity
  | .paren inner line, arity => by
    rw [compileExpr]
    exact (compileExpr_numbers inner (.fixed 1)).adjusted line arity
  | .unary op operand line, arity => by
    rw [compileExpr]
    have other : decide (unaryOpcode op = .closure) = false := by cases op <;> rfl
    exact Numbers.line ((compileExpr_numbers operand (.fixed 1)).last fun _ =>
      (emit_quiet _ 0 0 other).seq fun _ => adjustSingle_quiet arity) line
  | .binary op lhs rhs line, arity => by
    rw [compileExpr]
    exact (binary_numbers op (compileExpr_numbers lhs (.fixed 1))
      (compileExpr_numbers rhs (.fixed 1))).adjusted line arity
  | .index table key line, arity => by
    rw [compileExpr]
    exact Numbers.line ((compileExpr_numbers table (.fixed 1)).seq fun _ =>
      (compileExpr_numbers key (.fixed 1)).last fun _ =>
        (emit_quiet .getTable 0 0 rfl).seq fun _ => adjustSingle_quiet arity) line
  | .field table name line, arity => by
    rw [compileExpr]
    exact Numbers.line ((compileExpr_numbers table (.fixed 1)).last fun _ => (loadConstant_quiet _).seq
      fun _ => (emit_quiet .getTable 0 0 rfl).seq fun _ => adjustSingle_quiet arity) line
  | .call callee args line, arity => by
    rw [compileExpr]
    exact Numbers.line ((compileExpr_numbers callee (.fixed 1)).seq fun _ =>
      (compileMultiList_numbers args).last fun _ => (setLine_quiet line).seq fun _ =>
        finishCall_quiet _ arity) line
  | .methodCall object method args line, arity => by
    rw [compileExpr]
    have get : ∀ a, Quiet (emit .getStack a 0) := fun a => emit_quiet .getStack a 0 rfl
    have put : Quiet (emit .putStack 3 0) := emit_quiet .putStack 3 0 rfl
    exact Numbers.line ((compileExpr_numbers object (.fixed 1)).seq fun _ => (get 1).seq fun _ =>
      (loadConstant_quiet _).seq fun _ => (emit_quiet .getTable 0 0 rfl).seq fun _ => (get 1).seq fun _ =>
      (get 3).seq fun _ => put.seq fun _ => put.seq fun _ => (compileMultiList_numbers args).last fun _ =>
        (setLine_quiet line).seq fun _ => finishCall_quiet _ arity) line
  | .function body, arity => by
    rw [compileExpr]
    exact (compileFunction_numbers body _).adjusted _ arity
  | .table fields line, arity => by
    rw [compileExpr]
    exact Numbers.line ((emit_quiet .newTable 0 0 rfl).seq fun _ =>
      (compileFields_numbers 1 fields).last fun _ => adjustSingle_quiet arity) line

theorem compileValues_numbers : ∀ (count : Nat) (es : List Expr),
    Numbers (compileValues count es) (exprsFunctions es)
  | count, [] => by
    rw [compileValues]
    exact loadNil_quiet count
  | count, [e] => by
    rw [compileValues, exprsFunctions_single]
    exact compileExpr_numbers e (.fixed count)
  | count, e :: f :: rest => by
    rw [compileValues]
    exact (compileExpr_numbers e _).seq fun _ => compileValues_numbers (count - 1) (f :: rest)

theorem compileMultiList_numbers : ∀ es : List Expr, Numbers (compileMultiList es) (exprsFunctions es)
  | [] => by
    rw [compileMultiList]
    exact .pure _
  | [e] => by
    rw [compileMultiList, exprsFunctions_single]
    exact compileExpr_numbers e .multi
  | e :: f :: rest => by
    rw [compileMultiList]
    exact (compileExpr_numbers e _).seq fun _ => compileMultiList_numbers (f :: rest)

theorem compileFields_numbers : ∀ (position : Nat) (fields : List TableField),
    Numbers (compileFields position fields) (fieldsFunctions fields)
  | position, [] => by
    rw [compileFields]
    exact .pure _
  | position, .positional value :: rest => by
    rw [compileFields]
    exact (emit_quiet .getStack 1 0 rfl).seq fun _ => (loadConstant_quiet _).seq fun _ =>
      (compileExpr_numbers value _).seq fun _ => (emit_quiet .putTable 0 0 rfl).seq fun _ =>
        compileFields_numbers (position + 1) rest
  | position, .named name value :: rest => by
    rw [compileFields]
    exact (emit_quiet .getStack 1 0 rfl).seq fun _ => (loadConstant_quiet _).seq fun _ =>
      (compileExpr_numbers value _).seq fun _ => (emit_quiet .putTable 0 0 rfl).seq fun _ =>
        compileFields_numbers position rest
  | position, .keyed key value :: rest => by
    rw [compileFields]
    exact (emit_quiet .getStack 1 0 rfl).seq fun _ => (compileExpr_numbers key _).seq fun _ =>
      (compileExpr_numbers value _).seq fun _ => (emit_quiet .putTable 0 0 rfl).seq fun _ =>
        compileFields_numbers position rest

theorem compileFunction_numbers : ∀ (f : FunctionBody) (name : String),
    Numbers (compileFunction f name) f.functions
  | ⟨params, isVararg, body, line⟩, name =>
    function_numbers params isVararg line name (compileStatements_numbers none body)

theorem compilePlace_numbers : ∀ e : Expr, Numbers (compilePlace e) e.functions
  | .index table key line => by
    rw [compilePlace]
    exact (compileExpr_numbers table _).seq fun _ => compileExpr_numbers key _
  | .field table name line => by
    rw [compilePlace]
    exact (compileExpr_numbers table _).last fun _ => loadConstant_quiet _
  | .nil _ | .boolean .. | .number .. | .string .. | .varargs _ | .name .. => .throw CompileError.noConfusion
  | .paren .. | .unary .. | .binary .. | .call .. => .throw CompileError.noConfusion
  | .methodCall .. | .function _ | .table .. => .throw CompileError.noConfusion

theorem compileTargets_numbers : ∀ es : List Expr, Numbers (compileTargets es) (exprsFunctions es)
  | [] => by
    rw [compileTargets]
    exact .pure _
  | target :: rest => by
    have others := compileTargets_numbers rest
    have place := compilePlace_numbers target
    cases target with
    | name name line =>
      rw [compileTargets]
      exact others.last fun _ => .pure _
    | _ =>
      rw [compileTargets_entry (by rintro _ _ ⟨⟩)]
      exact place.seq fun _ => .get fun _ => others.last fun _ => .pure _

theorem compileStmt_numbers : ∀ (exit : Option LoopExit) (stmt : Stmt),
    Numbers (compileStmt exit stmt) stmt.functions
  | exit, .local names values line => by
    rw [compileStmt]
    exact Numbers.line ((compileValues_numbers _ values).last fun _ => bindLocals_quiet names) line
  | exit, .localFunction name body line => by
    rw [compileStmt]
    exact Numbers.line ((loadNil_quiet 1).seq fun _ => (bindLocals_quiet [name]).seq fun _ =>
      (compileFunction_numbers body name).last fun _ => writeVar_quiet name) line
  | exit, .assign [] values line => by
    rw [compileStmt_assign (by simp)]
    exact (assign_numbers (compileTargets_numbers []) (compileValues_numbers _ values)).line line
  | exit, .assign (first :: second :: rest) values line => by
    rw [compileStmt_assign (by simp)]
    exact (assign_numbers (compileTargets_numbers (first :: second :: rest))
      (compileValues_numbers _ values)).line line
  | exit, .assign [target] values line => by
    have place := compilePlace_numbers target
    have values' := compileValues_numbers 1 values
    rw [← exprsFunctions_single] at place
    cases target with
    | name name at' =>
      rw [compileStmt]
      exact (values'.last fun _ => writeVar_quiet name).line line
    | _ =>
      rw [compileStmt_place (by rintro _ _ ⟨⟩)]
      exact (place.seq fun _ => values'.last fun _ => emit_quiet .putTable 0 0 rfl).line line
  | exit, .call call => by
    rw [compileStmt]
    exact (compileExpr_numbers call _).line call.line
  | exit, .block body => by
    rw [compileStmt]
    exact (inScope_numbers (compileStatements_numbers exit body)).line body.line
  | exit, .while cond body line => by
    rw [compileStmt]
    exact (whileCode_numbers (compileExpr_numbers cond _) fun exit =>
      compileStatements_numbers exit body).line line
  | exit, .repeat body cond line => by
    rw [compileStmt]
    exact (repeatCode_numbers (fun exit => compileStatements_numbers exit body)
      (compileExpr_numbers cond _)).line line
  | exit, .if clauses none line => by
    rw [compileStmt]
    exact Numbers.line (newLabel_quiet.seq fun done => (compileClauses_numbers exit done _ clauses).seq
      fun _ => (Numbers.pure ()).seq fun _ => placeLabel_quiet done) line
  | exit, .if clauses (some body) line => by
    rw [compileStmt]
    exact Numbers.line (newLabel_quiet.seq fun done => (compileClauses_numbers exit done _ clauses).seq
      fun _ => (inScope_numbers (compileStatements_numbers exit body)).last fun _ =>
        placeLabel_quiet done) line
  | exit, .numericFor var start limit none body line => by
    rw [compileStmt]
    exact (numericForCode_numbers var (compileExpr_numbers start _) (compileExpr_numbers limit _)
      (loadConstant_quiet _) fun exit => compileStatements_numbers exit body).line line
  | exit, .numericFor var start limit (some step) body line => by
    rw [compileStmt]
    exact (numericForCode_numbers var (compileExpr_numbers start _) (compileExpr_numbers limit _)
      (compileExpr_numbers step _) fun exit => compileStatements_numbers exit body).line line
  | exit, .genericFor names values body line => by
    rw [compileStmt]
    exact (genericForCode_numbers names (compileValues_numbers 3 values) fun exit =>
      compileStatements_numbers exit body).line line
  | exit, .function name body line => by
    rw [compileStmt]
    refine Numbers.line ?_ line
    match storePath? name with
    | none => exact (compileFunction_numbers body _).last fun _ => writeVar_quiet _
    | some (fields, key) =>
      exact (readPath_quiet _ fields).seq fun _ => (loadConstant_quiet _).seq fun _ =>
        (compileFunction_numbers body _).last fun _ => emit_quiet .putTable 0 0 rfl
  | none, .break line => by
    rw [compileStmt]
    exact Numbers.line (.throw CompileError.noConfusion) line
  | some e, .break line => by
    rw [compileStmt]
    exact (jumpOut_quiet e.scope e.label).line line

theorem compileClauses_numbers : ∀ (exit : Option LoopExit) (done : Nat) (more : Bool)
    (clauses : List Clause), Numbers (compileClauses exit done more clauses) (clausesFunctions clauses)
  | exit, done, more, [] => by
    rw [compileClauses]
    exact .pure _
  | exit, done, more, ⟨cond, body⟩ :: rest => by
    rw [compileClauses]
    have others := compileClauses_numbers exit done more rest
    refine newLabel_quiet.seq fun next => (compileExpr_numbers cond _).seq fun _ =>
      (emit_quiet .not 0 0 rfl).seq fun _ => (emitJump_quiet .jmpTrue false next rfl).seq fun _ =>
      (inScope_numbers (compileStatements_numbers exit body)).seq fun _ => ?_
    exact Numbers.ite (fun _ => (emitJump_quiet .jmp false done rfl).seq fun _ =>
      (placeLabel_quiet next).seq fun _ => others) fun _ => (placeLabel_quiet next).seq fun _ => others

theorem compileStatements_numbers : ∀ (exit : Option LoopExit) (body : Block),
    Numbers (compileStatements exit body) body.functions
  | exit, ⟨stmts, none, line⟩ => by
    rw [compileStatements]
    exact (compileStmts_numbers exit stmts).seq fun _ => .pure _
  | exit, ⟨stmts, some ⟨values, retLine⟩, line⟩ => by
    rw [compileStatements]
    exact (compileStmts_numbers exit stmts).seq fun _ =>
      returnCode_numbers (compileMultiList_numbers values) retLine values.length

theorem compileStmts_numbers : ∀ (exit : Option LoopExit) (stmts : List Stmt),
    Numbers (compileStmts exit stmts) (stmtsFunctions stmts)
  | exit, [] => by
    rw [compileStmts]
    exact .pure _
  | exit, stmt :: rest => by
    rw [compileStmts]
    exact (compileStmt_numbers exit stmt).seq fun _ => compileStmts_numbers exit rest
end

/-! ## Chunks -/

/-- A function is refused once the counter has run out. -/
theorem compileFunction_exhausted (f : FunctionBody) (name : String) {s : State}
    (exhausted : 65535 ≤ s.nextId) : (compileFunction f name).run s = .error .tooManyFunctions := by
  obtain ⟨params, isVararg, body, line⟩ := f
  unfold compileFunction
  simp only [StateT.run, Bind.bind, StateT.bind, Except.bind, get, getThe, MonadStateOf.get, StateT.get,
    Pure.pure, Except.pure, if_pos exhausted]
  rfl

/-- The units of a chunk before it is verified. -/
theorem emitChunk_numbers (source : String) (body : Block) :
    (∀ u, emitChunk source body = .ok u →
      u.walk.map CodeUnit.id = List.range ((body.functions true).length + 1) ∧
      (body.functions true).length < 65535 ∧ Houses body u ∧
      List.Forall₂ Embodies (body.functions true) u.walk.tail) ∧
    (emitChunk source body = .error .tooManyFunctions → 65535 ≤ (body.functions true).length) := by
  have code : Numbers (do compileStatements none body; emit .ret 0 0) body.functions :=
    (compileStatements_numbers none body).last fun _ => emit_quiet .ret 0 0 rfl
  have root : (State.root source).Counted := ⟨by simp [State.root], .of_empty rfl, by simp [State.root]⟩
  unfold emitChunk
  cases ran : StateT.run (do compileStatements none body; emit .ret 0 0 : Compiler Unit)
      (.root source) with
  | error e =>
    simp only [ran]
    refine ⟨fun u ok => ?_, fun failed => ?_⟩
    · cases ok
    · cases failed
      have many : 65535 < 1 + (body.functions true).length := (code _ root).error ran rfl
      omega
  | ok r =>
    obtain ⟨⟨⟩, t⟩ := r
    simp only [ran]
    refine ⟨fun u finished => ?_, fun failed => absurd rfl (Builder.finish_error_ne failed)⟩
    obtain ⟨id, next, limit, closes, ids, all⟩ := finish_numbers code ⟨rfl, rfl, rfl⟩ root.limit ran finished
    have id : u.id = 0 := id
    have next : t.nextId = 1 + (body.functions true).length := next
    refine ⟨?_, by omega, closes, by rw [CodeUnit.walk_eq]; exact all⟩
    rw [CodeUnit.walk_eq, List.map_cons, ids, id, List.range_eq_range', List.range'_succ]
    rfl

/-- The ids of a compiled chunk, itself first, are 0, 1, 2 and so on without a gap, one for each function
body in the order of the source. The unit with an id is compiled from the body at its place, and in every
unit the `closure` instructions name its own children, each once, in the order of the function bodies
that stand in it. A chunk fails for the number of its functions only if it has more of them than there
are ids, and a function that no id is left for is always refused. -/
theorem compile_numbered (source : String) (body : Block) :
    (∀ u, compile source body = .ok u →
      u.walk.map CodeUnit.id = List.range ((body.functions true).length + 1) ∧
      (body.functions true).length < 65535 ∧ Houses body u ∧
      List.Forall₂ Embodies (body.functions true) u.walk.tail) ∧
    (compile source body = .error .tooManyFunctions → 65535 ≤ (body.functions true).length) ∧
    ∀ (f : FunctionBody) (name : String) (s : State), 65535 ≤ s.nextId →
      (compileFunction f name).run s = .error .tooManyFunctions := by
  obtain ⟨units, many⟩ := emitChunk_numbers source body
  rw [compile_eq]
  refine ⟨fun u compiled => ?_, fun failed => ?_, fun f name s => compileFunction_exhausted f name⟩
  · cases emitted : emitChunk source body with
    | error e => simp [emitted, Bind.bind, Except.bind] at compiled
    | ok v =>
      cases accepted : Verifier.verify v with
      | error e => simp [emitted, accepted, Bind.bind, Except.bind, Except.mapError] at compiled
      | ok _ =>
        simp only [emitted, accepted, Bind.bind, Except.bind, Except.mapError] at compiled
        cases compiled
        exact units u emitted
  · cases emitted : emitChunk source body with
    | error e =>
      simp only [emitted, Bind.bind, Except.bind, Except.error.injEq] at failed
      exact many (failed ▸ emitted)
    | ok v =>
      cases accepted : Verifier.verify v <;>
        simp [emitted, accepted, Bind.bind, Except.bind, Except.mapError, Pure.pure, Except.pure] at failed

/-- A function in a function, and another one after them. -/
theorem compile_numbered_nested :
    let empty : Block := ⟨[], none, 2⟩
    let outer : FunctionBody := ⟨["x"], false, ⟨[], some ⟨[.function ⟨[], false, empty, 2⟩], 2⟩, 1⟩, 1⟩
    let body : Block := ⟨[.local ["f"] [.function outer] 1,
      .call (.call (.name "g" 3) [.function ⟨[], true, empty, 3⟩] 3)], none, 1⟩
    ∃ u, compile "test" body = .ok u ∧ u.walk.map CodeUnit.id = [0, 1, 2, 3] ∧
      (closures u.code).map u.child? = u.children.map some := by
  intro empty outer body
  obtain ⟨u, compiled⟩ : ∃ u, compile "test" body = .ok u := ⟨_, by cbv⟩
  obtain ⟨ids, -, closes, -⟩ := (compile_numbered "test" body).1 u compiled
  exact ⟨u, compiled, ids, closes.found⟩

end Compiler

end ScriptEngine
