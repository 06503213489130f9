import ScriptEngine.Proofs.Compiler.Point

/-!
# What the compiler's primitives do to the point

Each primitive moves from a point to a point that depends on the first one only, whatever the state.
-/

set_option linter.dupNamespace false

namespace ScriptEngine

namespace Opcode

/-- Whether operands and depths are all that an instruction needs. -/
def isSimple : Opcode → Bool
  | add | sub | neg | mul | div | pow | concat | mod | len | eq | not | and | or | lessEq | less => true
  | newTable | putTable | getTable | popStack | call | forPrep | closeVars => true
  | _ => false

end Opcode

/-- Enough operands make a simple instruction legal. -/
theorem Legal.simple {u : CodeUnit} {upvalues : Nat} {captured : Nat → Nat} {op : Opcode} {a b : Nat}
    {d : Depths} (simple : op.isSimple = true) (operands : (op.operands a b : Int) < d.depth)
    (closed : 0 ≤ d.closed) : Legal u upvalues captured op a b d := by
  have other {x : Opcode} (complex : x.isSimple = false) : op ≠ x := by
    rintro rfl
    rw [simple] at complex
    cases complex
  exact { operands, closed
          read := fun same => absurd same (other rfl)
          write := fun same => absurd same (other rfl)
          constant := fun same => absurd same (other rfl)
          global := fun same => (same.elim (other rfl) (other rfl)).elim
          expand := fun same => absurd same (other rfl)
          release := fun same => absurd same (other rfl)
          upvalue := fun same => (same.elim (other rfl) (other rfl)).elim
          nested := fun same => absurd same (other rfl) }

namespace Compiler

variable {p : Point}

theorem Point.Scoped.now_closed (h : p.Scoped) (n : Nat) : 0 ≤ (p.push n).now.closed := by
  have := h.closed
  simp only [Point.now, Point.push]
  omega

/-- A simple instruction that takes `n` temporaries away, the last of which may be a multi-value if it
expands it, and leaves `m` of them. -/
theorem simple_stands (h : p.Scoped) {loose loose' : Prop} {op : Opcode} {a b n m : Nat}
    (simple : op.isSimple = true) (enough : op.operands a b ≤ n)
    (effect : Instruction.stackEffect op a b = (m : Int) - n)
    (keeps : Instruction.closedEffect op a = 0) (top : loose → op.expands a b = true)
    (opens : op = .call → b = 0 → loose') {s : State} (hs : Stands loose (p.push n) s) :
    Leads CompileError.IsLimit (emit op a b) s fun _ t => Stands loose' (p.push m) t := by
  have deep := h.depth
  have legal : ∀ u captured, Legal u p.upvalues captured op a b (p.push n).now := fun u captured =>
    .simple simple (by simp only [Point.now, Point.push]; omega) (h.now_closed n)
  have depth : ((p.push n).depth : Int) + Instruction.stackEffect op a b = (p.push m).depth := by
    simp only [Point.push, effect]
    omega
  have closed : ((p.push n).closed : Int) + Instruction.closedEffect op a = p.closed := by
    simp [Point.push, keeps]
  have plain : op.isJump = false := by
    cases op <;> simp [Opcode.isSimple] at simple <;> rfl
  have sorts : Sorts loose op a b (p.push n).depth loose' := by
    refine ⟨top, ?_, fun isOpen => ?_, ?_⟩
    · rintro rfl
      cases simple
    · cases op <;> cases simple <;> first | cases isOpen | exact opens rfl (by simpa [Opcode.opens] using isOpen)
    · rintro rfl
      cases simple
  exact (emit_stands hs plain (legal _) sorts depth closed).mono fun _ t ht => ht.1

/-- A simple instruction that takes plain temporaries and leaves plain ones. -/
theorem emit_brings (h : p.Scoped) {op : Opcode} {a b n m : Nat} (simple : op.isSimple = true)
    (enough : op.operands a b ≤ n) (effect : Instruction.stackEffect op a b = (m : Int) - n)
    (keeps : Instruction.closedEffect op a = 0)
    (firm : op = .call → b ≠ 0 := by simp) : Brings (p.push n) (emit op a b) (p.push m) := fun _ hs =>
  simple_stands h simple enough effect keeps False.elim (fun which zero => firm which zero) hs

theorem pop_brings (h : p.Scoped) {n m : Nat} : Brings (p.push (m + n)) (pop n) (p.push m) := by
  unfold pop
  split
  · rename_i zero
    subst zero
    exact .nothing _ _
  · refine emit_brings h rfl (by simp [Opcode.operands]) ?_ rfl
    simp only [Instruction.stackEffect]
    omega

theorem getStack_stands (h : p.Scoped) {loose : Prop} {n : Nat} (low : 1 ≤ n) (high : n ≤ p.depth)
    (opens : n = p.depth → loose) {s : State} (hs : At p s) :
    Leads CompileError.IsLimit (emit .getStack n 0) s fun _ t => Stands loose (p.push 1) t := by
  have deep := h.depth
  have legal : ∀ u captured, Legal u p.upvalues captured .getStack n 0 p.now := fun u captured =>
    { operands := by simp only [Opcode.operands, Point.now]; omega
      closed := h.now_closed 0
      read := fun _ => ⟨low, by simp only [Point.now]; omega⟩
      write := by simp, constant := by simp, global := by simp, expand := by simp
      release := by simp, upvalue := by simp, nested := by simp }
  have sorts : Sorts False .getStack n 0 p.depth loose :=
    ⟨False.elim, by simp, fun isOpen => opens (by simpa [Opcode.opens] using isOpen), by simp⟩
  exact (emit_stands hs rfl (legal _) sorts (d := p.depth + 1) (c := p.closed)
    (by simp [Instruction.stackEffect]) (by simp [Instruction.closedEffect])).mono
    fun _ t ht => ht.1

theorem getStack_brings (h : p.Scoped) {n : Nat} (low : 1 ≤ n) (high : n < p.depth) :
    Brings p (emit .getStack n 0) (p.push 1) := fun _ hs =>
  getStack_stands h low (Nat.le_of_lt high) (fun same => absurd same (Nat.ne_of_lt high)) hs

theorem putStack_brings (h : p.Scoped) {n m : Nat} (low : 2 ≤ n) (high : n < p.depth + m + 1) :
    Brings (p.push (m + 1)) (emit .putStack n 0) (p.push m) := by
  intro s hs
  have deep := h.depth
  have legal : ∀ u captured, Legal u p.upvalues captured .putStack n 0 (p.push (m + 1)).now :=
    fun u captured =>
    { operands := by simp only [Opcode.operands, Point.now, Point.push]; omega
      closed := h.now_closed (m + 1)
      read := by simp
      write := fun _ => ⟨low, by simp only [Point.now, Point.push]; omega⟩
      constant := by simp, global := by simp, expand := by simp, release := by simp
      upvalue := by simp, nested := by simp }
  exact (emit_leads hs rfl (legal _) (d := p.depth + m) (c := p.closed)
    (by simp only [Instruction.stackEffect, Point.push]; omega)
    (by simp [Instruction.closedEffect, Point.push])).mono fun _ t ht => ht.1

theorem getSlot_brings (h : p.Scoped) {slot : Nat} (low : 1 ≤ slot) (inside : slot < p.depth) :
    Brings p (getSlot slot) (p.push 1) := by
  intro s hs
  refine Leads.bind (Leads.get ?_)
  rw [hs.depth]
  exact getStack_brings h (by omega) (by omega) s hs

theorem putSlot_brings (h : p.Scoped) {slot n : Nat} (low : 1 ≤ slot) (inside : slot < p.depth + n) :
    Brings (p.push (n + 1)) (putSlot slot) (p.push n) := by
  intro s hs
  refine Leads.bind (Leads.get ?_)
  rw [hs.depth]
  exact putStack_brings h (by simp only [Point.push]; omega) (by simp only [Point.push]; omega) s hs

/-! ## Constants and variables -/

/-- The frame's first slot holds the arguments that no parameter took. -/
theorem getSlot_zero (h : p.Scoped) {s : State} (hs : At p s) :
    Leads CompileError.IsLimit (getSlot 0) s fun _ t => Stands True (p.push 1) t := by
  refine Leads.bind (Leads.get ?_)
  rw [hs.depth]
  exact getStack_stands h h.depth (Nat.le_refl _) (fun _ => trivial) hs

/-- Adding a constant keeps the point; the constant is found under the index that comes back. -/
theorem addConstant_leads {s : State} (hs : At p s) (v : Value)
    (plain : v.isPlain = true := by rfl) :
    Leads CompileError.IsLimit (addConstant v) s fun i t =>
      At p t ∧ ∃ w, t.builder.constants[i]? = some w ∧ (w == v ∨ w = v) := by
  obtain ⟨g, hg, firm⟩ := hs.drafted
  refine Leads.bind (Leads.get (Leads.bind (Leads.lift (fun r added => ?_) fun e failed => ?_)))
  · obtain ⟨i, b⟩ := r
    obtain ⟨hg', vararg, code, found⟩ := hg.addConstant plain added
    refine Leads.bind (Leads.set (Leads.pure ⟨⟨hs.upvalues, hs.enclosing, ?_, hs.ids, hs.locals, hs.depth,
      hs.closed, g, hg', ?_⟩, found⟩))
    · exact vararg.trans hs.isVararg
    · simpa only [Sketch.Open, code] using firm
  · unfold Builder.addConstant at failed
    split at failed
    · cases failed
    · split at failed
      · cases failed
      · cases failed
        trivial

theorem loadConstant_brings (h : p.Scoped) (v : Value) (plain : v.isPlain = true := by rfl) :
    Brings p (loadConstant v) (p.push 1) := by
  intro s hs
  refine (addConstant_leads hs v plain).seq ?_
  rintro i t ⟨ht, w, found, -⟩
  have deep := h.depth
  refine (emit_leads ht (a := i) (b := 0) rfl (fun captured => ?_) (d := p.depth + 1)
    (c := p.closed) (by simp [Instruction.stackEffect]) (by simp [Instruction.closedEffect])).mono
    fun _ t ht => ht.1
  exact { operands := by simp only [Opcode.operands, Point.now]; omega
          closed := h.now_closed 0
          constant := fun _ => (Array.getElem?_eq_some_iff.1 found).1
          read := by simp, write := by simp, global := by simp, expand := by simp
          release := by simp, upvalue := by simp, nested := by simp }

theorem loadNil_brings (h : p.Scoped) (n : Nat) : Brings p (loadNil n) (p.push n) := by
  induction n generalizing p with
  | zero => exact .nothing p _
  | succ n ih =>
    have both := (loadConstant_brings h .nil).seq (ih (h.push 1))
    rw [Point.push_push, Nat.add_comm] at both
    exact both

attribute [grind =] Value.equal

/-- A constant that is equal to a string is that string. -/
theorem eq_string_of_beq {w : Value} {s : String} (h : w == .string s ∨ w = .string s) :
    w = .string s := by
  rcases h with h | h
  · cases w <;> simp_all [BEq.beq, Value.equal]
  · exact h

/-- The instructions that read and write a variable of an enclosing function. -/
theorem upvalue_leads (h : p.Scoped) {s : State} (hs : At p s) {op : Opcode} {pos d : Nat}
    (which : op = .getUpval ∨ op = .putUpval) (bound : pos < p.upvalues)
    (deep : op.operands pos 0 < p.depth)
    (depth : (p.depth : Int) + Instruction.stackEffect op pos 0 = d) :
    Leads CompileError.IsLimit (emit op pos 0) s fun _ t => At { p with depth := d } t := by
  have legal : ∀ u captured, Legal u p.upvalues captured op pos 0 p.now := fun u captured => by
    rcases which with rfl | rfl <;>
      exact { operands := by simp only [Point.now]; omega
              closed := h.now_closed 0
              upvalue := fun _ => bound
              read := by simp, write := by simp, constant := by simp, global := by simp
              expand := by simp, release := by simp, nested := by simp }
  have closed : (p.closed : Int) + Instruction.closedEffect op pos = p.closed := by
    rcases which with rfl | rfl <;> simp [Instruction.closedEffect]
  refine (emit_leads hs (by rcases which with rfl | rfl <;> rfl) (legal _) depth closed
    (by rcases which with rfl | rfl <;> rfl) (by rcases which with rfl | rfl <;> simp)).mono
    fun _ t ht => ht.1

/-- The instructions that read and write a global. -/
theorem global_leads (h : p.Scoped) {s : State} (hs : At p s) {op : Opcode} (name : String) {d : Nat}
    (which : op = .getGlobal ∨ op = .putGlobal) (deep : ∀ i, op.operands i 0 < p.depth)
    (depth : ∀ i, (p.depth : Int) + Instruction.stackEffect op i 0 = d) :
    Leads CompileError.IsLimit (do let i ← addConstant (.string name); emit op i 0) s
      fun _ t => At { p with depth := d } t := by
  refine (addConstant_leads hs (.string name)).seq ?_
  rintro i t ⟨ht, w, found, same⟩
  have found' := eq_string_of_beq same ▸ found
  have closed : (p.closed : Int) + Instruction.closedEffect op i = p.closed := by
    rcases which with rfl | rfl <;> simp [Instruction.closedEffect]
  refine (emit_leads ht (by rcases which with rfl | rfl <;> rfl) (fun captured => ?_) (depth i) closed
    (by rcases which with rfl | rfl <;> rfl) (by rcases which with rfl | rfl <;> simp)).mono
    fun _ t ht => ht.1
  have := deep i
  rcases which with rfl | rfl <;>
    exact { operands := by simp only [Point.now]; omega
            closed := h.now_closed 0
            global := fun _ => ⟨name, found'⟩
            read := by simp, write := by simp, constant := by simp, expand := by simp
            release := by simp, upvalue := by simp, nested := by simp }

theorem resolve_local {s : State} {name : String} {slot : Nat} (h : s.resolve name = .slot slot) :
    ∃ l ∈ s.locals, l.slot = slot := by
  unfold State.resolve at h
  split at h
  · rename_i l found
    cases h
    exact ⟨l, List.mem_of_find?_eq_some found, rfl⟩
  · split at h <;> cases h

theorem resolve_upvalue {s : State} {name : String} {pos : Nat} (h : s.resolve name = .upvalue pos) :
    ∃ q ∈ s.enclosing, q.2 = pos := by
  unfold State.resolve at h
  split at h
  · cases h
  · split at h
    · rename_i found
      cases h
      exact ⟨_, List.mem_of_find?_eq_some found, rfl⟩
    · cases h

theorem readVar_brings (h : p.Scoped) (name : String) : Brings p (readVar name) (p.push 1) := by
  intro s hs
  have deep := h.depth
  refine Leads.bind (Leads.get ?_)
  split
  · rename_i slot found
    obtain ⟨l, mem, rfl⟩ := resolve_local found
    obtain ⟨low, inside, -⟩ := h.locals l (hs.locals ▸ mem)
    exact getSlot_brings h low inside s hs
  · rename_i pos found
    obtain ⟨q, mem, rfl⟩ := resolve_upvalue found
    exact upvalue_leads h hs (Or.inl rfl) (h.enclosing q (hs.enclosing ▸ mem))
      (by simp only [Opcode.operands]; omega) (by simp [Instruction.stackEffect])
  · exact global_leads h hs name (Or.inl rfl) (fun i => by simp only [Opcode.operands]; omega)
      (fun i => by simp [Instruction.stackEffect])

theorem writeVar_brings (h : p.Scoped) (n : Nat) (name : String) :
    Brings (p.push (n + 1)) (writeVar name) (p.push n) := by
  intro s hs
  have deep := h.depth
  have h' := h.push (n + 1)
  refine Leads.bind (Leads.get ?_)
  split
  · rename_i slot found
    obtain ⟨l, mem, rfl⟩ := resolve_local found
    obtain ⟨low, high, -⟩ := h.locals l (hs.locals ▸ mem)
    exact putSlot_brings h low (by omega) s hs
  · rename_i pos found
    obtain ⟨q, mem, rfl⟩ := resolve_upvalue found
    exact upvalue_leads h' hs (Or.inr rfl) (h.enclosing q (hs.enclosing ▸ mem))
      (by simp only [Opcode.operands, Point.push]; omega)
      (by simp only [Instruction.stackEffect, Point.push]; omega)
  · exact global_leads h' hs name (Or.inr rfl)
      (fun i => by simp only [Opcode.operands, Point.push]; omega)
      (fun i => by simp only [Instruction.stackEffect, Point.push]; omega)

/-! ## Scopes -/

/-- The point with new names for its `n` topmost slots, which have been closed over. -/
def Point.bound (p : Point) (names : List String) : Point :=
  { p with
    closed := p.closed + names.length
    locals := Compiler.bind names (p.depth - names.length) p.closed p.locals }

theorem mem_bind {names : List String} {slot pos : Nat} {locals : List Local} {l : Local}
    (h : l ∈ Compiler.bind names slot pos locals) :
    l ∈ locals ∨ slot ≤ l.slot ∧ l.slot < slot + names.length ∧ pos ≤ l.closurePos ∧
      l.closurePos < pos + names.length := by
  induction names generalizing slot pos locals with
  | nil => exact Or.inl h
  | cons name rest ih =>
    rcases ih h with h | h
    · rcases List.mem_cons.1 h with rfl | h
      · right
        simp only [List.length_cons]
        omega
      · exact Or.inl h
    · right
      simp only [List.length_cons]
      omega

theorem Point.Scoped.bound (h : p.Scoped) (names : List String) :
    ((p.push names.length).bound names).Scoped where
  depth := (h.push names.length).depth
  closed := by
    have := h.closed
    simp only [Point.bound, Point.push]
    omega
  locals l hl := by
    have deep := h.depth
    rcases mem_bind hl with hl | hl
    · have := h.locals l hl
      simp only [Point.bound, Point.push]
      omega
    · simp only [Point.bound, Point.push] at hl ⊢
      omega
  enclosing := h.enclosing

theorem bindLocals_brings (h : p.Scoped) (names : List String) :
    Brings (p.push names.length) (bindLocals names) ((p.push names.length).bound names) := by
  intro s hs
  have deep := h.depth
  have legal : ∀ u captured, Legal u p.upvalues captured .closeVars names.length 0
      (p.push names.length).now := fun u captured =>
    .simple rfl (by simp only [Opcode.operands, Point.now, Point.push]; omega) (h.now_closed _)
  refine (emit_leads hs rfl (legal _) (d := p.depth + names.length)
    (c := p.closed + names.length) (by simp [Instruction.stackEffect, Point.push])
    (by simp [Instruction.closedEffect, Point.push])).seq ?_
  intro _ t ht
  have ht := ht.1
  refine Leads.modify ⟨ht.upvalues, ht.enclosing, ht.isVararg, ht.ids, ?_, ht.depth, ht.closed, ht.drafted⟩
  simp only [ht.locals, ht.depth, ht.closed, Point.bound, Point.push, Nat.add_sub_cancel]

/-- What is live at `outer` is live at `p`, possibly under more. -/
structure Within (outer : Scope) (p : Point) : Prop where
  depth : 1 ≤ outer.depth ∧ outer.depth ≤ p.depth
  closed : p.upvalues ≤ outer.closed ∧ outer.closed ≤ p.closed

/-- The point after a release down to `outer`. -/
def Point.released (p : Point) (outer : Scope) : Point :=
  { p with depth := outer.depth, closed := outer.closed }

theorem release_brings {outer : Scope} (h : Within outer p) :
    Brings p (release outer) (p.released outer) := by
  intro s hs
  obtain ⟨⟨low, high⟩, ⟨low', high'⟩⟩ := h
  refine Leads.bind (Leads.get ?_)
  -- first the closure list, then the stack
  have drop : Brings { p with closed := outer.closed } (pop (p.depth - outer.depth))
      (p.released outer) := by
    intro t ht
    unfold pop
    refine Leads.ite (fun zero => ?_) fun some' => ?_
    · refine Leads.pure ?_
      have : p.released outer = { p with closed := outer.closed } := by
        simp only [Point.released, Point.mk.injEq, and_true, true_and]
        omega
      rw [this]
      exact ht
    · refine (emit_leads ht rfl (fun captured => .simple rfl ?_ ?_) (d := outer.depth)
        (c := outer.closed) ?_ (by simp [Instruction.closedEffect])).mono fun _ t ht => ht.1
      · simp only [Opcode.operands, Point.now]
        omega
      · simp only [Point.now]
        omega
      · simp only [Instruction.stackEffect]
        omega
  refine Leads.ite (fun more => ?_) fun none' => ?_
  · refine (emit_leads hs (a := s.closed - outer.closed) (b := 0) rfl
      (fun captured => ?_) (d := p.depth) (c := outer.closed) (by simp [Instruction.stackEffect]) ?_).seq
      fun _ t ht => ?_
    · rw [hs.closed]
      exact { operands := by simp only [Opcode.operands, Point.now]; omega
              closed := by simp only [Point.now]; omega
              release := fun _ => by simp only [Point.now]; omega
              read := by simp, write := by simp, constant := by simp, global := by simp
              expand := by simp, upvalue := by simp, nested := by simp }
    · rw [hs.closed]
      simp only [Instruction.closedEffect]
      omega
    · rw [hs.depth]
      exact drop t ht.1
  · have same : p.closed = outer.closed := by
      rw [hs.closed] at none'
      omega
    have : ({ p with closed := outer.closed } : Point) = p := by
      simp only [← same]
    rw [this] at drop
    rw [hs.depth]
    exact drop s hs

theorem closeScope_brings {outer : Scope} (h : Within outer p) :
    Brings p (closeScope outer) { p.released outer with locals := outer.locals } := fun s hs =>
  (release_brings h s hs).seq fun _ _ ht => Leads.modify
    ⟨ht.upvalues, ht.enclosing, ht.isVararg, ht.ids, rfl, ht.depth, ht.closed, ht.drafted⟩

/-- `q` is `p` with more on the stack, in the closure list and in scope. -/
structure Point.Grows (p q : Point) : Prop where
  depth : p.depth ≤ q.depth
  closed : p.closed ≤ q.closed
  same : { q with depth := p.depth, closed := p.closed, locals := p.locals } = p

namespace Point.Grows

theorem refl (p : Point) : p.Grows p := ⟨Nat.le_refl _, Nat.le_refl _, rfl⟩

theorem trans {q r : Point} (h : p.Grows q) (h' : q.Grows r) : p.Grows r where
  depth := Nat.le_trans h.depth h'.depth
  closed := Nat.le_trans h.closed h'.closed
  same := by
    have same := h.same
    rw [← h'.same] at same
    exact same

theorem push (p : Point) (n : Nat) : p.Grows (p.push n) := ⟨Nat.le_add_right _ _, Nat.le_refl _, rfl⟩

theorem bound (p : Point) (names : List String) : p.Grows (p.bound names) :=
  ⟨Nat.le_refl _, Nat.le_add_right _ _, rfl⟩

theorem upvalues {q : Point} (h : p.Grows q) : q.upvalues = p.upvalues :=
  (congrArg Point.upvalues h.same :)

theorem awaited {q : Point} (h : p.Grows q) : q.awaited = p.awaited :=
  (congrArg Point.awaited h.same :)

theorem passed {q : Point} (h : p.Grows q) : q.passed = p.passed :=
  (congrArg Point.passed h.same :)

end Point.Grows

/-- What is live at a point. -/
def Point.scope (p : Point) : Scope := ⟨p.locals, p.depth, p.closed⟩

theorem Point.Scoped.within {q : Point} (h : p.Scoped) (grows : p.Grows q) : Within p.scope q :=
  ⟨⟨h.depth, grows.depth⟩, ⟨by rw [grows.upvalues]; exact h.closed, grows.closed⟩⟩

theorem Point.Grows.released_now {q : Point} (grows : p.Grows q) :
    (q.released p.scope).now = p.now := by
  simp only [Point.now, Point.released, Point.scope, grows.upvalues]

/-- Closing a scope leads back to where it was opened. -/
theorem closeScope_grown {q : Point} (h : p.Scoped) (grows : p.Grows q) :
    Brings q (closeScope p.scope) p := by
  have close := closeScope_brings (h.within grows)
  rw [show ({ q.released p.scope with locals := p.scope.locals } : Point) = p from grows.same] at close
  exact close

theorem scope_brings {α : Type} {q : Point} {f : Scope → Compiler α} (h : Brings p (f p.scope) q) :
    Brings p (scope >>= f) q := by
  intro s hs
  refine Leads.bind (Leads.bind (Leads.get (Leads.pure ?_)))
  rw [hs.locals, hs.depth, hs.closed]
  exact h s hs

/-- A scope of its own ends where it started, whatever the action adds to the stack and to the
closure list. -/
theorem inScope_brings {q : Point} {c : Compiler Unit} (h : p.Scoped) (grows : p.Grows q)
    (action : Brings p c q) : Brings p (inScope c) p :=
  scope_brings (action.seq (closeScope_grown h grows))

/-- After code that control leaves, the point is the one before it. -/
theorem leaving_brings {c : Compiler Unit}
    (h : ∀ s, At p s → Leads CompileError.IsLimit c s fun _ t => Left p t) :
    Brings p (leaving c) p := fun s hs => by
  refine Leads.bind (Leads.get ((h s hs).seq fun _ t ht => Leads.modify ?_))
  exact ⟨ht.upvalues, ht.enclosing, ht.isVararg, ht.ids, ht.locals, hs.depth, hs.closed, ht.drafted p.now⟩

/-- A jump out of scopes leads to a label where just `outer` is live. -/
theorem jumpOut_brings {outer : Scope} {l : Nat} (h : Within outer p)
    (mark : (l, (p.released outer).now) ∈ p.awaited ++ p.passed) :
    Brings p (jumpOut outer l) p := by
  refine leaving_brings fun s hs => ?_
  refine (release_brings h s hs).seq fun _ t ht => ?_
  have effect : (p.released outer).now.after .jmp 0 (if false then 1 else 0) = (p.released outer).now := by
    simp [Depths.after, Instruction.stackEffect, Instruction.closedEffect]
  have low := h.depth.1
  refine (emitJump_leads ht (l := l) (d := outer.depth) rfl ?_
    h.closed.1 (by rw [effect]; exact mark) ?_).mono fun _ t ht => ?_
  · simp only [Opcode.operands, Point.released]
    omega
  · simp [Instruction.stackEffect, Point.released]
  · have ht := ht.2 rfl
    exact ⟨ht.upvalues, ht.enclosing, ht.isVararg, ht.ids, ht.locals, ht.drafted⟩

/-! ## Labels -/

/-- The point with other labels. -/
def Point.marked (p : Point) (awaited passed : Marks) : Point := { p with awaited, passed }

theorem Point.Grows.marked {q : Point} (grows : p.Grows q) (awaited passed : Marks) :
    (p.marked awaited passed).Grows (q.marked awaited passed) := by
  refine ⟨grows.depth, grows.closed, ?_⟩
  have same := grows.same
  simp only [Point.marked]
  rw [← same]

theorem Point.Scoped.marked (h : p.Scoped) (awaited passed : Marks) :
    (p.marked awaited passed).Scoped :=
  ⟨h.depth, h.closed, h.locals, h.enclosing⟩

/-- A new label is open for control that comes with depths `d`. -/
theorem newLabel_brings {α : Type} {q : Point} (d : Depths) {f : Nat → Compiler α}
    (h : ∀ l, (∀ m ∈ p.awaited, m.1 ≠ l) → Brings (p.marked ((l, d) :: p.awaited) p.passed) (f l) q) :
    Brings p (newLabel >>= f) q := by
  intro s hs
  obtain ⟨g, hg, firm⟩ := hs.drafted
  exact h s.builder.labels.size (fun m hm => hg.newLabel_ne hm) _
    ⟨hs.upvalues, hs.enclosing, hs.isVararg, hs.ids, hs.locals, hs.depth, hs.closed, _,
      hg.newLabel d, firm⟩

/-- An open label gets its place, and the others stay open. -/
theorem placeLabel_brings (others rest : Marks) {l : Nat}
    (open' : p.awaited = others ++ (l, p.now) :: rest) (fresh : ∀ m ∈ others ++ rest, m.1 ≠ l) :
    Brings p (placeLabel l) (p.marked (others ++ rest) ((l, p.now) :: p.passed)) := by
  intro s hs
  obtain ⟨g, hg, firm⟩ := hs.drafted
  refine ⟨hs.upvalues, hs.enclosing, hs.isVararg, hs.ids, hs.locals, hs.depth, hs.closed, g,
    hg.placeLabel (by simp [open']) fun m => ?_, firm⟩
  simp only [open', Point.marked, List.mem_append, List.mem_cons]
  constructor
  · intro mem
    exact ⟨mem.imp_right Or.inr, fresh m (List.mem_append.2 mem)⟩
  · rintro ⟨mem | rfl | mem, ne⟩
    · exact Or.inl mem
    · exact absurd rfl ne
    · exact Or.inr mem

/-- What is known of passed labels may be forgotten. -/
theorem Brings.forget {α : Type} {c : Compiler α} {q : Point} {marks : Marks}
    (some' : ∀ m ∈ marks, m ∈ q.passed) (h : Brings p c q) : Brings p c (q.marked q.awaited marks) :=
  fun s hs => (h s hs).mono fun _ t ht => by
    obtain ⟨g, hg, firm⟩ := ht.drafted
    exact ⟨ht.upvalues, ht.enclosing, ht.isVararg, ht.ids, ht.locals, ht.depth, ht.closed, g,
      { hg with passed := fun m hm => hg.passed m (some' m hm) }, firm⟩

/-- With the place of its last label, a construct is done. -/
theorem placeLabel_done {l : Nat} {passed : Marks} (fresh : ∀ m ∈ p.awaited, m.1 ≠ l)
    (kept : ∀ m ∈ p.passed, m ∈ passed) :
    Brings (p.marked ((l, p.now) :: p.awaited) passed) (placeLabel l) p := by
  have place := placeLabel_brings (p := p.marked ((l, p.now) :: p.awaited) passed) [] p.awaited rfl fresh
  have known : ∀ m ∈ p.passed, m ∈ (l, p.now) :: passed := fun m mem =>
    List.mem_cons_of_mem _ (kept m mem)
  have forgotten := place.forget known
  exact forgotten

/-- A conditional jump takes the top value away on both ways. -/
theorem jmpTrue_brings (h : p.Scoped) {l : Nat} (mark : (l, p.now) ∈ p.awaited ++ p.passed) :
    Brings (p.push 1) (emitJump .jmpTrue false l) p := by
  intro s hs
  have deep := h.depth
  have effect : (p.push 1).now.after .jmpTrue 0 (if false then 1 else 0) = p.now := by
    have depth : ((p.depth + 1 : Nat) : Int) + -1 = p.depth := by omega
    show Depths.mk _ _ = Depths.mk _ _
    rw [Depths.mk.injEq]
    exact ⟨depth, Int.add_zero _⟩
  refine (emitJump_leads hs (l := l) (d := p.depth) rfl ?_
    h.closed (by rw [effect]; exact mark) ?_).mono fun _ t ht => ht.1
  · simp only [Opcode.operands, Point.push]
    omega
  · show ((p.depth + 1 : Nat) : Int) + -1 = p.depth
    omega

/-- A conditional jump that only looks at the top value. -/
theorem jmpTruePeek_brings (h : p.Scoped) {l : Nat}
    (mark : (l, (p.push 1).now) ∈ p.awaited ++ p.passed) :
    Brings (p.push 1) (emitJump .jmpTrue true l) (p.push 1) := by
  intro s hs
  have deep := h.depth
  have effect : (p.push 1).now.after .jmpTrue 0 (if true then 1 else 0) = (p.push 1).now := by
    simp [Depths.after, Instruction.stackEffect, Instruction.closedEffect]
  refine (emitJump_leads hs (l := l) (d := p.depth + 1) rfl ?_
    h.closed (by rw [effect]; exact mark) ?_).mono fun _ t ht => ht.1
  · simp only [Opcode.operands, Point.push]
    omega
  · simp [Instruction.stackEffect, Point.push]

/-- An unconditional jump leaves the depths alone. -/
theorem jmp_brings (h : p.Scoped) {l : Nat} (mark : (l, p.now) ∈ p.awaited ++ p.passed) :
    Brings p (emitJump .jmp false l) p := by
  intro s hs
  have deep := h.depth
  have effect : p.now.after .jmp 0 (if false then 1 else 0) = p.now := by
    simp [Depths.after, Instruction.stackEffect, Instruction.closedEffect]
  refine (emitJump_leads hs (l := l) (d := p.depth) rfl ?_
    h.closed (by rw [effect]; exact mark) ?_).mono fun _ t ht => ht.1
  · simp only [Opcode.operands]
    omega
  · simp [Instruction.stackEffect]

/-! ## Numbers of results -/

/-- The slots that an expression is compiled to. -/
def Arity.slots : Arity → Nat
  | .fixed n => n
  | .multi => 1

/-- A multi-value on top gives way to `n` values. -/
theorem popVarArgs_stands (h : p.Scoped) {loose : Prop} (n : Nat) {s : State}
    (hs : Stands loose (p.push 1) s) :
    Leads CompileError.IsLimit (emit .popVarArgs n 1) s fun _ t => At (p.push n) t := by
  have deep := h.depth
  have legal : ∀ u captured, Legal u p.upvalues captured .popVarArgs n 1 (p.push 1).now :=
    fun u captured =>
    { operands := by simp only [Opcode.operands, Point.now, Point.push]; omega
      closed := h.now_closed 1
      expand := fun _ => Nat.le_refl 1
      read := by simp, write := by simp, constant := by simp, global := by simp
      release := by simp, upvalue := by simp, nested := by simp }
  have sorts : Sorts loose .popVarArgs n 1 (p.push 1).depth False :=
    ⟨fun _ => rfl, by simp, by simp [Opcode.opens], by simp⟩
  exact (emit_stands hs rfl (legal _) sorts (d := p.depth + n) (c := p.closed)
    (by simp only [Instruction.stackEffect, Point.push]; omega)
    (by simp [Instruction.closedEffect, Point.push])).mono fun _ t ht => ht.1

/-- From every point, `c` leaves the slots of `arity` on top of what is there; a multi-value may be in
the last of them if as many values as there are were wanted. -/
def Leaves {α : Type} (c : Compiler α) (arity : Arity) : Prop :=
  ∀ (p : Point) (s : State), p.Scoped → At p s → Leads CompileError.IsLimit c s fun _ t =>
    Stands (arity = .multi) (p.push arity.slots) t

theorem adjustMulti_stands (h : p.Scoped) (arity : Arity) {s : State} (hs : Stands True (p.push 1) s) :
    Leads CompileError.IsLimit (adjustMulti arity) s fun _ t =>
      Stands (arity = .multi) (p.push arity.slots) t := by
  cases arity with
  | multi => exact Leads.pure (hs.mono fun _ => rfl)
  | fixed n => exact (popVarArgs_stands h n hs).mono fun _ t ht => ht.mono False.elim

theorem adjustSingle_brings (h : p.Scoped) (arity : Arity) :
    Brings (p.push 1) (adjustSingle arity) (p.push arity.slots) := by
  match arity with
  | .multi => exact .nothing _ _
  | .fixed 0 =>
    have none' := pop_brings h (n := 1) (m := 0)
    rw [Nat.zero_add] at none'
    exact none'
  | .fixed (n + 1) =>
    have nils := loadNil_brings (h.push 1) n
    rw [Point.push_push, Nat.add_comm] at nils
    exact nils

/-- The last argument may be a multi-value. -/
theorem finishCall_stands (h : p.Scoped) {loose : Prop} {args : Nat} (some' : loose → 0 < args)
    (arity : Arity) {s : State} (hs : Stands loose (p.push (args + 1)) s) :
    Leads CompileError.IsLimit (finishCall args arity) s fun _ t =>
      Stands (arity = .multi) (p.push arity.slots) t := by
  have top (b : Nat) : loose → Opcode.expands .call args b = true := by
    simpa [Opcode.expands] using some'
  have multi : Leads CompileError.IsLimit (emit .call args 0) s fun _ t => Stands True (p.push 1) t :=
    simple_stands h rfl (by simp [Opcode.operands]) (by simp [Instruction.stackEffect]) rfl (top 0)
      (fun _ _ => trivial) hs
  cases arity with
  | multi => exact multi.mono fun _ t ht => ht.mono fun _ => rfl
  | fixed n =>
    refine Leads.ite (fun some'' => ?_) fun other => ?_
    · refine simple_stands h rfl (by simp [Opcode.operands]) ?_ rfl (top n) (fun _ zero => ?_) hs
      · simp only [Instruction.stackEffect, Arity.slots]
        split <;> omega
      · omega
    · exact multi.seq fun _ t ht => adjustMulti_stands h (.fixed n) ht

end Compiler

end ScriptEngine
