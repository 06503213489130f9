import ScriptEngine.Proofs.Compiler.Nameless
import ScriptEngine.Proofs.Compiler.Scoping

/-!
# Two compilations side by side

A program and its renaming are compiled by the same actions, in states that differ in names only
(`Twin`). `Paired P c c' Q` runs two actions from states related by `P`: both succeed with `Q`, or both
fail with one error up to names. The primitives of emission keep twins; the names of variables matter
in `State.resolve` alone, which leads to the same place on both sides (`Twin.resolve`).
-/

set_option linter.dupNamespace false

namespace ScriptEngine.Compiler

open Lexical (Renaming Proper)

variable {α β γ δ : Type} {r : Renaming} {env own outer inner : Lexical.Scope} {n : Nat}

/-! ## Names that are aligned with a scope -/

/-- Two lists of named entries that differ in the names only: the first has the names of the bindings in
scope, the second their new names. -/
inductive Aligned (r : Renaming) : Lexical.Scope → List (String × α) → List (String × α) → Prop
  | nil : Aligned r [] [] []
  | cons (binding : String × Nat) (a : α) {env : Lexical.Scope} {entries entries' : List (String × α)} :
    Aligned r env entries entries' →
      Aligned r (binding :: env) ((binding.1, a) :: entries) ((r.binder binding, a) :: entries')

namespace Aligned

variable {entries entries' more more' : List (String × α)}

theorem append (h : Aligned r own entries entries') (h' : Aligned r outer more more') :
    Aligned r (own ++ outer) (entries ++ more) (entries' ++ more') := by
  induction h with
  | nil => exact h'
  | cons binding a _ ih => exact .cons binding a ih

theorem map (h : Aligned r env entries entries') (f : α → β) :
    Aligned r env (entries.map fun p => (p.1, f p.2)) (entries'.map fun p => (p.1, f p.2)) := by
  induction h with
  | nil => exact .nil
  | cons binding a _ ih => exact .cons binding (f a) ih

/-- A variable and its new name lead to the same entry. -/
theorem find (h : Aligned r env entries entries') (proper : Proper r n env) {name : String}
    (other : name ≠ r.fresh) :
    (entries'.find? (·.1 == r.use env name)).map (·.2) =
      (entries.find? (·.1 == name)).map (·.2) := by
  induction h with
  | nil => rfl
  | cons binding a _ ih =>
    by_cases same : binding.1 = name
    · rw [r.use_of_eq same, List.find?_cons_of_pos (by simp),
        List.find?_cons_of_pos (by simpa using same)]
      rfl
    · have apart := Renaming.binder_ne_use proper other same
      rw [r.use_of_ne same, List.find?_cons_of_neg (by simpa using apart),
        List.find?_cons_of_neg (by simpa using same)]
      exact ih proper.tail

theorem use_of_unseen (h : Aligned r env entries entries') {name : String}
    (unseen : entries.find? (·.1 == name) = none) : r.use env name = name := by
  induction h with
  | nil => rfl
  | cons binding a _ ih =>
    obtain ⟨other, unseen⟩ := List.forall_mem_cons.1 (List.find?_eq_none.1 unseen)
    rw [r.use_of_ne (by simpa using other)]
    exact ih (List.find?_eq_none.2 unseen)

end Aligned

/-- A local under its name. -/
def Local.entry (l : Local) : String × (Nat × Nat) := (l.name, l.slot, l.closurePos)

theorem Aligned.bind {locals locals' : List Local}
    (h : Aligned r env (locals.map Local.entry) (locals'.map Local.entry)) (names : List String)
    (slot closurePos : Nat) :
    Aligned r (Lexical.numbered n names ++ env) ((Compiler.bind names slot closurePos locals).map Local.entry)
      ((Compiler.bind (r.binders n names) slot closurePos locals').map Local.entry) := by
  induction names generalizing n slot closurePos env locals locals' with
  | nil => exact h
  | cons name rest ih =>
    rw [Lexical.numbered_cons]
    exact ih (.cons (name, n) (slot, closurePos) h) (slot + 1) (closurePos + 1)

/-! ## Twins -/

/-- What of a state has nothing to do with names. -/
def State.nameless (s : State) : State :=
  { s with name := "", builder := s.builder.nameless, locals := [], enclosing := [] }

/-- Two states that differ in names only, where `own` are the visible bindings of the function under
compilation and `outer` those of the functions around it. -/
structure Twin (r : Renaming) (own outer : Lexical.Scope) (s s' : State) : Prop where
  nameless : s'.nameless = s.nameless
  locals : Aligned r own (s.locals.map Local.entry) (s'.locals.map Local.entry)
  enclosing : Aligned r outer s.enclosing s'.enclosing

/-- Where the visible names lead, the innermost first. -/
def State.visible (s : State) : List (String × Var) :=
  s.locals.map (fun l => (l.name, Var.slot l.slot)) ++ s.enclosing.map fun p => (p.1, Var.upvalue p.2)

theorem State.find_visible (s : State) (name : String) :
    s.visible.find? (·.1 == name) =
      ((s.locals.find? (·.name == name)).map fun l => (l.name, Var.slot l.slot)).or
        ((s.enclosing.find? (·.1 == name)).map fun p => (p.1, Var.upvalue p.2)) := by
  rw [visible, List.find?_append, List.find?_map, List.find?_map]
  rfl

theorem State.resolve_eq (s : State) (name : String) :
    s.resolve name = ((s.visible.find? (·.1 == name)).map (·.2)).getD .global := by
  rw [find_visible, resolve]
  cases s.locals.find? (·.name == name) with
  | some l => rfl
  | none => cases s.enclosing.find? (·.1 == name) <;> rfl

theorem State.unseen_of_global {s : State} {name : String} (h : s.resolve name = .global) :
    s.visible.find? (·.1 == name) = none := by
  rw [find_visible]
  unfold resolve at h
  split at h
  · cases h
  · rename_i own
    split at h
    · cases h
    · rename_i around
      rw [own, around]
      rfl

namespace Twin

variable {s s' : State}

theorem depth (h : Twin r own outer s s') : s'.depth = s.depth := (congrArg State.depth h.nameless :)

theorem closed (h : Twin r own outer s s') : s'.closed = s.closed := (congrArg State.closed h.nameless :)

theorem upvalueCount (h : Twin r own outer s s') : s'.upvalueCount = s.upvalueCount :=
  (congrArg State.upvalueCount h.nameless :)

theorem builder (h : Twin r own outer s s') : s'.builder.nameless = s.builder.nameless :=
  (congrArg State.builder h.nameless :)

/-- A change that neither looks at names nor changes them. -/
theorem update (h : Twin r own outer s s') (f : State → State)
    (blind : ∀ s, (f s).nameless = f s.nameless := by intros; rfl)
    (locals : ∀ s, (f s).locals = s.locals := by intros; rfl)
    (enclosing : ∀ s, (f s).enclosing = s.enclosing := by intros; rfl) :
    Twin r own outer (f s) (f s') where
  nameless := by rw [blind, blind, h.nameless]
  locals := by
    rw [locals, locals]
    exact h.locals
  enclosing := by
    rw [enclosing, enclosing]
    exact h.enclosing

theorem withBuilder (h : Twin r own outer s s') {b b' : Builder} (same : b'.nameless = b.nameless) :
    Twin r own outer { s with builder := b } { s' with builder := b' } where
  nameless := by
    show { s'.nameless with builder := b'.nameless } = { s.nameless with builder := b.nameless }
    rw [same, h.nameless]
  locals := h.locals
  enclosing := h.enclosing

theorem visible (h : Twin r own outer s s') : Aligned r (own ++ outer) s.visible s'.visible := by
  have locals := h.locals.map fun p => Var.slot p.1
  rw [List.map_map, List.map_map] at locals
  exact locals.append (h.enclosing.map Var.upvalue)

/-- A variable and its new name lead to the same place. -/
theorem resolve (h : Twin r own outer s s') (proper : Proper r n (own ++ outer)) {name : String}
    (other : name ≠ r.fresh) : s'.resolve (r.use (own ++ outer) name) = s.resolve name := by
  rw [State.resolve_eq, State.resolve_eq, h.visible.find proper other]

/-- A global keeps its name. -/
theorem use_of_global (h : Twin r own outer s s') {name : String} (free : s.resolve name = .global) :
    r.use (own ++ outer) name = name :=
  h.visible.use_of_unseen (State.unseen_of_global free)

end Twin

/-! ## Running two actions -/

/-- Two outcomes that agree: results related by `V`, or one error up to names. -/
def Agree (V : α → β → Prop) : Except CompileError α → Except CompileError β → Prop
  | .ok a, .ok b => V a b
  | .error e, .error e' => e'.nameless = e.nameless
  | _, _ => False

namespace Agree

variable {V : α → β → Prop} {x : Except CompileError α} {x' : Except CompileError β}

theorem bind {W : γ → δ → Prop} {f : α → Except CompileError γ} {f' : β → Except CompileError δ}
    (h : Agree V x x') (next : ∀ a b, V a b → Agree W (f a) (f' b)) : Agree W (x >>= f) (x' >>= f') := by
  unfold Agree at h
  split at h
  · exact next _ _ h
  · exact h
  · exact h.elim

end Agree

theorem agree_iff {x x' : Except CompileError CodeUnit} :
    Agree (fun u u' => u'.nameless = u.nameless) x x' ↔ nameless x' = nameless x := by
  cases x <;> cases x' <;> simp [Agree, nameless, Except.map, Except.mapError]

/-- The outcomes of two actions agree from all states related by `P`. -/
def Paired (P : State → State → Prop) (c : Compiler α) (c' : Compiler β)
    (Q : α → β → State → State → Prop) : Prop :=
  ∀ s s', P s s' → Agree (fun x x' => Q x.1 x'.1 x.2 x'.2) (c s) (c' s')

namespace Paired

variable {P P' : State → State → Prop} {c : Compiler α} {c' : Compiler β} {f : α → Compiler γ}
  {f' : β → Compiler δ} {Q : α → β → State → State → Prop} {R : γ → δ → State → State → Prop}

theorem bind (h : Paired P c c' Q) (next : ∀ a b, Paired (Q a b) (f a) (f' b) R) :
    Paired P (c >>= f) (c' >>= f') R := fun s s' hs =>
  (h s s' hs).bind fun x x' agree => next x.1 x'.1 x.2 x'.2 agree

/-- One action after another whose value does not matter. -/
theorem seq {d : Compiler γ} {d' : Compiler δ} (h : Paired P c c' fun _ _ => P')
    (next : Paired P' d d' R) : Paired P (c >>= fun _ => d) (c' >>= fun _ => d') R :=
  h.bind fun _ _ => next

/-- What is known of the values does not depend on the states. -/
theorem value {V : α → β → Prop} (h : Paired P c c' fun a b t t' => V a b ∧ P' t t')
    (next : ∀ a b, V a b → Paired P' (f a) (f' b) R) : Paired P (c >>= f) (c' >>= f') R :=
  h.bind fun a b t t' ⟨v, ht⟩ => next a b v t t' ht

theorem pure {a : α} {b : β} (h : ∀ s s', P s s' → Q a b s s') :
    Paired P (Pure.pure a) (Pure.pure b) Q := h

theorem throw {e e' : CompileError} (same : e'.nameless = e.nameless) :
    Paired P (MonadExcept.throw e : Compiler α) (MonadExcept.throw e' : Compiler β) Q := fun _ _ _ => same

theorem fail {e e' : CompileError} (same : e'.nameless = e.nameless) :
    Paired P ((MonadExcept.throw e : Compiler α) >>= f) ((MonadExcept.throw e' : Compiler β) >>= f') R :=
  fun _ _ _ => same

theorem ite {p : Prop} [Decidable p] {d : Compiler α} {d' : Compiler β}
    (yes : p → Paired P c c' Q) (no : ¬p → Paired P d d' Q) :
    Paired P (if p then c else d) (if p then c' else d') Q := by
  split
  · exact yes ‹_›
  · exact no ‹_›

theorem set {t t' : State} {Q : PUnit → PUnit → State → State → Prop} (h : Q ⟨⟩ ⟨⟩ t t') :
    Paired P (MonadStateOf.set t : Compiler PUnit) (MonadStateOf.set t' : Compiler PUnit) Q :=
  fun _ _ _ => h

/-- Actions that need no state. -/
theorem lift {V : α → β → Prop} {x : Except CompileError α} {x' : Except CompileError β}
    (agree : Agree V x x') :
    Paired P (liftM x : Compiler α) (liftM x' : Compiler β) fun a b t t' => V a b ∧ P t t' :=
  fun _ _ hs => agree.bind fun _ _ v => ⟨v, hs⟩

theorem get {f f' : State → Compiler γ} {R : γ → γ → State → State → Prop}
    (next : ∀ s s', P s s' → Paired P (f s) (f' s') R) :
    Paired P (MonadState.get >>= f) (MonadState.get >>= f') R := fun s s' hs => next s s' hs s s' hs

end Paired

/-! ## Emission -/

/-- Two actions that keep twins. -/
def Keeps (r : Renaming) (own outer : Lexical.Scope) (c c' : Compiler Unit) : Prop :=
  Paired (Twin r own outer) c c' fun _ _ => Twin r own outer

theorem modify_keeps (f : State → State)
    (blind : ∀ s, (f s).nameless = f s.nameless := by intros; rfl)
    (locals : ∀ s, (f s).locals = s.locals := by intros; rfl)
    (enclosing : ∀ s, (f s).enclosing = s.enclosing := by intros; rfl) :
    Keeps r own outer (modify f) (modify f) := fun _ _ h => h.update f blind locals enclosing

theorem apply_keeps (op : Opcode) (a b : Nat) (ins : Instruction) :
    Keeps r own outer (apply op a b ins) (apply op a b ins) := by
  intro s s' h
  let low (s : State) : Prop := (s.depth : Int) + Instruction.stackEffect op a b < 1 ∨
    (s.closed : Int) + Instruction.closedEffect op a < s.upvalueCount
  have alike : low s' ↔ low s := by
    simp only [low]
    rw [h.depth, h.closed, h.upvalueCount]
  have ran : ∀ s, apply op a b ins s = (if low s then throw (.unbalanced ins s.name) else set { s with
      depth := ((s.depth : Int) + Instruction.stackEffect op a b).toNat
      closed := ((s.closed : Int) + Instruction.closedEffect op a).toNat } : Compiler Unit) s :=
    fun _ => rfl
  rw [ran, ran]
  by_cases under : low s
  · rw [if_pos under, if_pos (alike.2 under)]
    rfl
  · rw [if_neg under, if_neg (mt alike.1 under)]
    exact h.update fun s => { s with
      depth := ((s.depth : Int) + Instruction.stackEffect op a b).toNat
      closed := ((s.closed : Int) + Instruction.closedEffect op a).toNat }

theorem emit_keeps (op : Opcode) (a b : Nat) : Keeps r own outer (emit op a b) (emit op a b) := by
  refine Paired.ite (fun _ => Paired.fail rfl) fun _ => Paired.ite (fun _ => Paired.fail rfl) fun _ => ?_
  exact (apply_keeps op a b _).seq (modify_keeps _)

theorem emitJump_keeps (op : Opcode) (peek : Bool) (label : Nat) :
    Keeps r own outer (emitJump op peek label) (emitJump op peek label) :=
  (apply_keeps op 0 _ _).seq (modify_keeps _)

theorem placeLabel_keeps (label : Nat) :
    Keeps r own outer (placeLabel label) (placeLabel label) := modify_keeps _

theorem setLine_keeps (line : Nat) : Keeps r own outer (setLine line) (setLine line) := modify_keeps _

/-- Labels are the same on both sides. -/
theorem newLabel_paired : Paired (Twin r own outer) newLabel newLabel
    fun label label' t t' => label' = label ∧ Twin r own outer t t' := by
  intro s s' h
  have labels : s'.builder.labels = s.builder.labels := (congrArg Builder.labels h.builder :)
  refine ⟨congrArg Array.size labels, ?_⟩
  exact h.update fun s => { s with builder := s.builder.newLabel.2 }

/-- Constants have the same indices on both sides. -/
theorem addConstant_paired (v : Value) : Paired (Twin r own outer) (addConstant v) (addConstant v)
    fun i i' t t' => i' = i ∧ Twin r own outer t t' := by
  refine Paired.get fun s s' h => ?_
  have alike : (s'.builder.addConstant v).map (fun r => (r.1, r.2.nameless)) =
      (s.builder.addConstant v).map fun r => (r.1, r.2.nameless) := by
    rw [← Builder.addConstant_nameless, ← Builder.addConstant_nameless, h.builder]
  have agree : Agree (fun r r' => r'.1 = r.1 ∧ r'.2.nameless = r.2.nameless) (s.builder.addConstant v)
      (s'.builder.addConstant v) := by
    cases added : s.builder.addConstant v <;> cases added' : s'.builder.addConstant v <;>
      simp_all [Agree, Except.map]
  refine (Paired.lift agree).value fun a b same => ?_
  exact (Paired.set (h.withBuilder same.2)).seq (Paired.pure fun _ _ twin => ⟨same.1, twin⟩)

theorem loadConstant_keeps (v : Value) : Keeps r own outer (loadConstant v) (loadConstant v) := by
  refine (addConstant_paired v).value fun i i' same => ?_
  subst same
  exact emit_keeps .loadK _ 0

theorem nothing_keeps : Keeps r own outer (pure ()) (pure ()) := Paired.pure fun _ _ h => h

theorem loadNil_keeps (k : Nat) : Keeps r own outer (loadNil k) (loadNil k) := by
  induction k with
  | zero => exact nothing_keeps
  | succ k ih => exact (loadConstant_keeps .nil).seq ih

theorem pop_keeps (k : Nat) : Keeps r own outer (pop k) (pop k) :=
  Paired.ite (fun _ => nothing_keeps) fun _ => emit_keeps .popStack k 0

theorem getSlot_keeps (slot : Nat) : Keeps r own outer (getSlot slot) (getSlot slot) :=
  Paired.get fun s s' h => by
    rw [h.depth]
    exact emit_keeps .getStack _ 0

theorem putSlot_keeps (slot : Nat) : Keeps r own outer (putSlot slot) (putSlot slot) :=
  Paired.get fun s s' h => by
    rw [h.depth]
    exact emit_keeps .putStack _ 0

theorem adjustMulti_keeps (arity : Arity) : Keeps r own outer (adjustMulti arity) (adjustMulti arity) := by
  cases arity with
  | multi => exact nothing_keeps
  | fixed k => exact emit_keeps .popVarArgs k 1

theorem adjustSingle_keeps (arity : Arity) :
    Keeps r own outer (adjustSingle arity) (adjustSingle arity) := by
  match arity with
  | .multi => exact nothing_keeps
  | .fixed 0 => exact pop_keeps 1
  | .fixed (k + 1) => exact loadNil_keeps k

theorem finishCall_keeps (args : Nat) (arity : Arity) :
    Keeps r own outer (finishCall args arity) (finishCall args arity) := by
  cases arity with
  | multi => exact emit_keeps .call args 0
  | fixed k =>
    exact Paired.ite (fun _ => emit_keeps .call args k)
      fun _ => (emit_keeps .call args 0).seq (adjustMulti_keeps (.fixed k))

/-! ## Scopes -/

/-- Scopes that differ in names only. -/
structure SameScope (r : Renaming) (own : Lexical.Scope) (a b : Scope) : Prop where
  depth : b.depth = a.depth
  closed : b.closed = a.closed
  locals : Aligned r own (a.locals.map Local.entry) (b.locals.map Local.entry)

theorem scope_paired : Paired (Twin r own outer) scope scope
    fun a b t t' => SameScope r own a b ∧ Twin r own outer t t' :=
  fun _ _ h => ⟨⟨h.depth, h.closed, h.locals⟩, h⟩

/-- Where control leads out of a loop, apart from names. -/
def LoopExit.place (exit : LoopExit) : Nat × Nat × Nat := (exit.label, exit.scope.depth, exit.scope.closed)

theorem release_keeps {a b : Scope} (depth : b.depth = a.depth) (closed : b.closed = a.closed) :
    Keeps r own outer (release a) (release b) :=
  Paired.get fun s s' h => by
    rw [depth, closed, h.depth, h.closed]
    exact Paired.ite (fun _ => (emit_keeps .popClosed _ 0).seq (pop_keeps _)) fun _ => pop_keeps _

theorem closeScope_paired {a b : Scope} (same : SameScope r own a b) :
    Paired (Twin r inner outer) (closeScope a) (closeScope b) fun _ _ => Twin r own outer := by
  refine (release_keeps same.depth same.closed).seq fun s s' h => ?_
  exact ⟨h.nameless, same.locals, h.enclosing⟩

theorem inScope_keeps {c c' : Compiler Unit}
    (h : Paired (Twin r own outer) c c' fun _ _ => Twin r inner outer) :
    Keeps r own outer (inScope c) (inScope c') :=
  scope_paired.value fun _ _ same => h.seq (closeScope_paired same)

/-- Code after which control goes elsewhere. -/
theorem leaving_keeps {c c' : Compiler Unit} (h : Keeps r own outer c c') :
    Keeps r own outer (leaving c) (leaving c') :=
  Paired.get fun s s' same => by
    rw [same.depth, same.closed]
    exact h.seq (modify_keeps fun t => { t with depth := s.depth, closed := s.closed })

theorem jumpOut_keeps {a b : Scope} (depth : b.depth = a.depth) (closed : b.closed = a.closed)
    (label : Nat) : Keeps r own outer (jumpOut a label) (jumpOut b label) :=
  leaving_keeps ((release_keeps depth closed).seq (emitJump_keeps .jmp false label))

theorem bindLocals_paired (names : List String) :
    Paired (Twin r own outer) (bindLocals names) (bindLocals (r.binders n names))
      fun _ _ => Twin r (Lexical.numbered n names ++ own) outer := by
  have length : (r.binders n names).length = names.length := by
    simp [Renaming.binders]
  unfold bindLocals
  rw [length]
  refine (emit_keeps .closeVars names.length 0).seq fun s s' h => ?_
  have locals := h.locals.bind (n := n) names (s.depth - names.length) (s.closed - names.length)
  rw [← h.depth, ← h.closed] at locals
  refine ⟨h.nameless, ?_, h.enclosing⟩
  simp only [← h.depth, ← h.closed]
  exact locals

/-! ## Variables -/

theorem readVar_keeps (proper : Proper r n (own ++ outer)) {name : String} (other : name ≠ r.fresh) :
    Keeps r own outer (readVar name) (readVar (r.use (own ++ outer) name)) := by
  refine Paired.get fun s s' h => ?_
  rw [h.resolve proper other]
  cases resolved : s.resolve name with
  | slot slot => exact getSlot_keeps slot
  | upvalue pos => exact emit_keeps .getUpval pos 0
  | global =>
    rw [h.use_of_global resolved]
    refine (addConstant_paired _).value fun i i' same => ?_
    subst same
    exact emit_keeps .getGlobal _ 0

theorem writeVar_keeps (proper : Proper r n (own ++ outer)) {name : String} (other : name ≠ r.fresh) :
    Keeps r own outer (writeVar name) (writeVar (r.use (own ++ outer) name)) := by
  refine Paired.get fun s s' h => ?_
  rw [h.resolve proper other]
  cases resolved : s.resolve name with
  | slot slot => exact putSlot_keeps slot
  | upvalue pos => exact emit_keeps .putUpval pos 0
  | global =>
    rw [h.use_of_global resolved]
    refine (addConstant_paired _).value fun i i' same => ?_
    subst same
    exact emit_keeps .putGlobal _ 0

end ScriptEngine.Compiler
