import ScriptEngine.Proofs.Compiler.Draft

/-!
# Points of the emission

A `Point` is what the compiler knows between two emissions: the names in scope, the depths, and the
labels that are open or have been passed. `Brings p c q` says that action `c` takes every state at
point `p` to a state at point `q`, or fails for a limit: it never finds the stack unbalanced and never
leaves a label without a place. This module has one such statement for each primitive of the compiler.
-/

namespace ScriptEngine

/-- A reason not to compile a program that lies in the program: a limit it exceeds, or a `break` or
`...` where none is allowed. -/
def CompileError.IsLimit : CompileError → Prop
  | source error => error.flaw = .breakOutsideLoop ∨ error.flaw = .varargsOutsideFunction
  | tooManyConstants | tooManyFunctions | tooManyParameters | tooLarge _ _ | operand _ _ => True
  | unresolvedLabel _ | unbalanced _ _ | notAssignable | verification _ => False

namespace Compiler

structure Point where
  upvalues : Nat
  enclosing : List (String × Nat)
  isVararg : Bool
  id : Nat
  /-- Functions that are compiled from here on have at least this id. -/
  firstId : Nat
  /-- The labels that still need a place. -/
  awaited : Marks
  /-- Labels that have a place. -/
  passed : Marks
  locals : List Local
  depth : Nat
  closed : Nat

namespace Point

/-- The depths that the next instruction is entered with. -/
def now (p : Point) : Depths := ⟨p.depth, (p.closed : Int) - p.upvalues⟩

/-- The point with `n` more slots on the stack. -/
def push (p : Point) (n : Nat) : Point := { p with depth := p.depth + n }

@[simp] theorem push_zero (p : Point) : p.push 0 = p := rfl

@[simp] theorem push_push (p : Point) (m n : Nat) : (p.push m).push n = p.push (m + n) := by
  simp [push, Nat.add_assoc]

/-- Names lead to slots above the frame's first one and to entries of the closure list. -/
structure Scoped (p : Point) : Prop where
  depth : 1 ≤ p.depth
  closed : p.upvalues ≤ p.closed
  locals : ∀ l ∈ p.locals, 1 ≤ l.slot ∧ l.slot < p.depth ∧ l.closurePos < p.closed
  enclosing : ∀ q ∈ p.enclosing, q.2 < p.upvalues

theorem Scoped.push {p : Point} (h : p.Scoped) (n : Nat) : (p.push n).Scoped where
  depth := Nat.le_add_right_of_le h.depth
  closed := h.closed
  locals l hl := by
    have := h.locals l hl
    simp only [Point.push]
    omega
  enclosing := h.enclosing

end Point

/-- State `s` is at point `p`, and only if `loose` a multi-value may be on top there. -/
structure Stands (loose : Prop) (p : Point) (s : State) : Prop where
  upvalues : s.upvalueCount = p.upvalues
  enclosing : s.enclosing = p.enclosing
  isVararg : s.builder.isVararg = p.isVararg
  ids : s.id = p.id ∧ p.firstId ≤ s.nextId
  locals : s.locals = p.locals
  depth : s.depth = p.depth
  closed : s.closed = p.closed
  drafted : ∃ g, Drafted s.builder p.upvalues s.nextId p.now p.awaited p.passed g ∧
    (g.Open s.builder → loose)

/-- State `s` is at point `p`, with no multi-value on top. -/
abbrev At (p : Point) (s : State) : Prop := Stands False p s

theorem Stands.mono {loose loose' : Prop} {p : Point} {s : State} (h : Stands loose p s)
    (weaken : loose → loose') : Stands loose' p s :=
  have ⟨g, hg, top⟩ := h.drafted
  { h with drafted := ⟨g, hg, fun isOpen => weaken (top isOpen)⟩ }

/-- Control has left: whatever the depths at `p`, the next instruction can be entered with them. -/
structure Left (p : Point) (s : State) : Prop where
  upvalues : s.upvalueCount = p.upvalues
  enclosing : s.enclosing = p.enclosing
  isVararg : s.builder.isVararg = p.isVararg
  ids : s.id = p.id ∧ p.firstId ≤ s.nextId
  locals : s.locals = p.locals
  drafted : ∀ now, ∃ g, Drafted s.builder p.upvalues s.nextId now p.awaited p.passed g ∧
    ¬g.Open s.builder

/-- `c` takes states at `p` to states at `q`, unless a limit is exceeded. -/
def Brings {α : Type} (p : Point) (c : Compiler α) (q : Point) : Prop :=
  ∀ s, At p s → Leads CompileError.IsLimit c s fun _ t => At q t

namespace Brings

variable {α β : Type} {p q r : Point}

theorem seq {c : Compiler α} {d : Compiler β} (first : Brings p c q) (second : Brings q d r) :
    Brings p (c >>= fun _ => d) r := fun s hs =>
  (first s hs).seq fun _ t ht => second t ht

theorem nothing (p : Point) (a : α) : Brings p (pure a : Compiler α) p := fun _ hs => hs

end Brings

theorem setLine_stands {loose : Prop} {p : Point} {s : State} (hs : Stands loose p s) (line : Nat) :
    Leads CompileError.IsLimit (setLine line) s fun _ t => Stands loose p t :=
  ⟨hs.upvalues, hs.enclosing, hs.isVararg, hs.ids, hs.locals, hs.depth, hs.closed, hs.drafted⟩

theorem setLine_brings (p : Point) (line : Nat) : Brings p (setLine line) p := fun _ hs =>
  setLine_stands hs line

/-! ## Emitting -/

/-- A legal instruction leaves the stack balanced. -/
theorem apply_leads {loose : Prop} {p : Point} {s : State} (hs : Stands loose p s) {u : CodeUnit} {captured : Nat → Nat}
    {op : Opcode} {a b : Nat} (legal : Legal u p.upvalues captured op a b p.now) (ins : Instruction)
    {d c : Nat} (depth : (p.depth : Int) + Instruction.stackEffect op a b = d)
    (closed : (p.closed : Int) + Instruction.closedEffect op a = c) :
    Leads CompileError.IsLimit (apply op a b ins) s fun _ t => t = { s with depth := d, closed := c } := by
  have deep := legal.depth_after
  have held := legal.closed_after
  simp only [Depths.after, Point.now] at deep held
  refine Leads.bind (Leads.get ?_)
  simp only [hs.depth, hs.closed, hs.upvalues, depth, closed]
  rw [if_neg (by omega)]
  exact Leads.set rfl

/-- What an instruction does about multi-values where one may be on top if `loose`: it expands it, and
one is on top of what it leaves only if `loose'`. -/
structure Sorts (loose : Prop) (op : Opcode) (a b depth : Nat) (loose' : Prop) : Prop where
  top : loose → op.expands a b = true
  first : op = .popVarArgs → b = 0 → depth = 1
  opens : op.opens a b depth = true → loose'
  passes : op = .popClosed → loose → loose'

theorem Sorts.handles {loose loose' isOpen : Prop} {op : Opcode} {a b depth : Nat} {closed : Int}
    (h : Sorts loose op a b depth loose') (top : isOpen → loose) :
    op.Handles a b ⟨depth, closed⟩ isOpen :=
  ⟨fun isOpen => h.top (top isOpen), fun which zero => by simp [h.first which zero]⟩

theorem emit_drafted {loose loose' : Prop} {p : Point} {s : State} (hs : Stands loose p s)
    {op : Opcode} {a b : Nat} (plain : op.isJump = false) {g : Sketch}
    (hg : Drafted s.builder p.upvalues s.nextId p.now p.awaited p.passed g)
    (top : g.Open s.builder → loose)
    (legal : Legal s.builder.draft p.upvalues g.captured op a b p.now)
    (sorts : Sorts loose op a b p.depth loose')
    {d c : Nat} (depth : (p.depth : Int) + Instruction.stackEffect op a b = d)
    (closed : (p.closed : Int) + Instruction.closedEffect op a = c) :
    Leads CompileError.IsLimit (emit op a b) s fun _ t =>
      Stands loose' { p with depth := d, closed := c } t ∧ (op.continues = false → Left p t) := by
  unfold emit
  refine Leads.ite (fun _ => Leads.bind (Leads.throw trivial)) fun small => ?_
  refine Leads.ite (fun _ => Leads.bind (Leads.throw trivial)) fun small' => ?_
  have fit : (Instruction.make op a.toUInt16 b.toUInt8).a.toNat = a := by
    simp [Instruction.make]
    omega
  have fit' : (Instruction.make op a.toUInt16 b.toUInt8).b.toNat = b := by
    simp [Instruction.make]
    omega
  have opcode := Instruction.opcode?_make op a.toUInt16 b.toUInt8
  have emitted {now : Depths} (next : op.continues = true → now = p.now.after op a b) :=
    hg.emit opcode plain (by rw [fit, fit']; exact legal) (by rw [fit, fit']; exact sorts.handles top)
      (by rw [fit, fit']; exact next) s.line
  refine (apply_leads hs legal _ depth closed).seq ?_
  rintro - t rfl
  refine Leads.modify ⟨?_, fun stop => ?_⟩
  · refine ⟨hs.upvalues, hs.enclosing, hs.isVararg, hs.ids, hs.locals, rfl, rfl, _,
      emitted fun _ => ?_, fun isOpen => ?_⟩
    · simp only [Point.now, Depths.after, Depths.mk.injEq]
      omega
    · rcases hg.open_emit opcode isOpen with opens | ⟨which, before⟩
      · rw [fit, fit'] at opens
        exact sorts.opens opens
      · exact sorts.passes which (top before)
  · refine ⟨hs.upvalues, hs.enclosing, hs.isVararg, hs.ids, hs.locals, fun now => ⟨_,
      emitted fun go => absurd go (by simp [stop]), fun isOpen => ?_⟩⟩
    rcases hg.open_emit opcode isOpen with opens | ⟨rfl, -⟩
    · cases op <;> cases stop <;> cases opens
    · cases stop

/-- An instruction that is legal whatever the nested units are. -/
theorem emit_stands {loose loose' : Prop} {p : Point} {s : State} (hs : Stands loose p s)
    {op : Opcode} {a b : Nat} (plain : op.isJump = false)
    (legal : ∀ captured, Legal s.builder.draft p.upvalues captured op a b p.now)
    (sorts : Sorts loose op a b p.depth loose') {d c : Nat} (depth : (p.depth : Int) + Instruction.stackEffect op a b = d)
    (closed : (p.closed : Int) + Instruction.closedEffect op a = c) :
    Leads CompileError.IsLimit (emit op a b) s fun _ t =>
      Stands loose' { p with depth := d, closed := c } t ∧ (op.continues = false → Left p t) := by
  obtain ⟨g, hg, top⟩ := hs.drafted
  exact emit_drafted hs plain hg top (legal g.captured) sorts depth closed

/-- An instruction that has nothing to do with multi-values. -/
theorem emit_leads {p : Point} {s : State} (hs : At p s) {op : Opcode} {a b : Nat}
    (plain : op.isJump = false)
    (legal : ∀ captured, Legal s.builder.draft p.upvalues captured op a b p.now)
    {d c : Nat} (depth : (p.depth : Int) + Instruction.stackEffect op a b = d)
    (closed : (p.closed : Int) + Instruction.closedEffect op a = c)
    (firm : op.opens a b p.depth = false := by rfl)
    (first : op = .popVarArgs → b = 0 → p.depth = 1 := by simp) :
    Leads CompileError.IsLimit (emit op a b) s fun _ t =>
      At { p with depth := d, closed := c } t ∧ (op.continues = false → Left p t) :=
  emit_stands hs plain legal ⟨False.elim, first, fun opens => by simp [firm] at opens, fun _ => id⟩
    depth closed

theorem emitJump_leads {p : Point} {s : State} (hs : At p s) {op : Opcode} {peek : Bool} {l : Nat}
    (jump : op.isJump = true) (deep : (op.operands 0 0 : Int) < p.depth)
    (held : p.upvalues ≤ p.closed)
    (mark : (l, p.now.after op 0 (if peek then 1 else 0)) ∈ p.awaited ++ p.passed) {d : Nat}
    (depth : (p.depth : Int) + Instruction.stackEffect op 0 (if peek then 1 else 0) = d) :
    Leads CompileError.IsLimit (emitJump op peek l) s fun _ t =>
      At { p with depth := d } t ∧ (op.continues = false → Left p t) := by
  obtain ⟨g, hg, top⟩ := hs.drafted
  have legal : Legal s.builder.draft p.upvalues g.captured op 0 (if peek then 1 else 0) p.now := by
    have closed : 0 ≤ p.now.closed := by
      simp only [Point.now]
      omega
    cases op <;> simp [Opcode.isJump] at jump <;>
      exact { operands := deep, closed, read := by simp, write := by simp, constant := by simp
              global := by simp, expand := by simp, release := by simp, upvalue := by simp
              nested := by simp }
  have closed : (p.closed : Int) + Instruction.closedEffect op 0 = p.closed := by
    cases op <;> simp [Opcode.isJump] at jump <;> simp [Instruction.closedEffect]
  have firm {line : Nat} : ¬Sketch.Open { g with depths := g.depths ++ [p.now] }
      (s.builder.emitJump op peek l line) := by
    intro isOpen
    rcases hg.open_emit (Instruction.opcode?_make ..) isOpen with opens | ⟨-, before⟩
    · cases op <;> cases jump <;> cases opens
    · exact top before
  unfold emitJump
  refine (apply_leads hs legal _ depth closed).seq ?_
  rintro - t rfl
  refine Leads.modify ⟨?_, fun stop => ?_⟩
  · refine ⟨hs.upvalues, hs.enclosing, hs.isVararg, hs.ids, hs.locals, rfl, rfl, _,
      hg.emitJump jump legal top mark (fun _ => ?_) s.line, firm⟩
    simp only [Point.now, Depths.after, Depths.mk.injEq]
    omega
  · exact ⟨hs.upvalues, hs.enclosing, hs.isVararg, hs.ids, hs.locals, fun now => ⟨_,
      hg.emitJump jump legal top mark (fun go => by rw [stop] at go; cases go) s.line, firm⟩⟩

end Compiler

end ScriptEngine
