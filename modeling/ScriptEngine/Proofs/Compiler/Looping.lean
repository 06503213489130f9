import ScriptEngine.Proofs.Compiler.Charting
import ScriptEngine.Proofs.Compiler.Renaming

/-!
# Scopes, branches and loops in the chart

Statements declare locals and release them, and leave for the exit of the loop around them. `Spans` says
what the code of a statement does with the scope, and `Settles exit c V T` that the compiler action `c` emits
such code, after which the names `V` are visible and which does `T` about names. Here are the rules for blocks, branches and loops. A numeric loop has the form that
`CodeUnit.NumericLoop` gives, and its body is charted over a ground that hides the control slots
(`forLoop_links`).
-/

set_option linter.dupNamespace false

namespace ScriptEngine.Compiler

variable {α β : Type} {s t : State} {F : Whole} {g : Ground} {n m k : Nat}
  {enclosing : List (String × Nat)} {exits : List (Nat × Scope)} {T : Namings}

theorem Lays.and {c : Compiler α} {P Q : α → State → Whole → Prop} (first : Lays k c s P)
    (second : Lays k c s Q) : Lays k c s fun a t F => P a t F ∧ Q a t F := by
  intro sound low
  have first := first sound low
  have second := second sound low
  unfold Leads at first second ⊢
  split at first
  · rename_i result
    simp only [result] at second ⊢
    exact ⟨first.1, fun F within => ⟨first.2 F within, second.2 F within⟩⟩
  · trivial

/-! ## Scopes -/

/-- What is live in `ρ` is live in `σ`, and the other locals of `σ` are above. -/
structure Scope.Around (ρ σ : Scope) : Prop where
  depth : ρ.depth ≤ σ.depth
  closed : ρ.closed ≤ σ.closed
  locals : ∀ l ∈ ρ.locals, l ∈ σ.locals
  above : ∀ l ∈ σ.locals, l.slot < ρ.depth → l ∈ ρ.locals

theorem Scope.Around.refl (σ : Scope) : σ.Around σ :=
  ⟨Nat.le_refl _, Nat.le_refl _, fun _ mem => mem, fun _ mem _ => mem⟩

theorem Scope.Around.trans {ρ σ τ : Scope} (first : ρ.Around σ) (second : σ.Around τ) : ρ.Around τ :=
  ⟨first.depth.trans second.depth, first.closed.trans second.closed,
    fun l mem => second.locals l (first.locals l mem),
    fun l mem low => first.above l (second.above l mem (Nat.lt_of_lt_of_le low first.depth)) low⟩

/-- Below the same locals. -/
theorem Scope.Around.of_locals {ρ σ : Scope} (locals : ρ.locals = σ.locals) (depth : ρ.depth ≤ σ.depth)
    (closed : ρ.closed ≤ σ.closed) : ρ.Around σ :=
  ⟨depth, closed, fun _ mem => locals ▸ mem, fun _ mem _ => locals ▸ mem⟩

/-- An instruction that is there only if `p`. -/
def Perhaps (p : Prop) (F : Whole) (s t : State) (op : Opcode) (a b : Nat) : Prop :=
  p ∧ Puts F s t op a b ∨ ¬p ∧ t = s

/-- An instruction that only releases what is on top. -/
theorem Puts.frees {op : Opcode} {a : Nat} (puts : Puts F s t op a 0)
    (which : op = .popClosed ∨ op = .popStack) (floor : g.floor ≤ s.depth) (ascending : Ascending s.locals) :
    Charts F.unit enclosing g exits s.ip s.scope t.ip t.scope [] := by
  have depth := puts.depth
  have closed := puts.closed
  have effect : Instruction.stackEffect op a 0 = -(op.touched a 0 : Int) ∧
      Instruction.closedEffect op a ≤ 0 := by
    rcases which with rfl | rfl <;>
      simp [Instruction.stackEffect, Instruction.closedEffect, Opcode.touched, Opcode.operands]
  have other : op ≠ .closeVars ∧ op ≠ .putStack ∧ op ≠ .closure ∧ op.isJump = false ∧ op ≠ .forPrep := by
    rcases which with rfl | rfl <;> simp [Opcode.isJump]
  obtain ⟨notBind, notPut, notClosure, notJump, notPrep⟩ := other
  have admits : Admits F.unit enclosing g s.scope op a 0 none :=
    { ascending, floor := Or.inl floor
      room := fun other => Or.inl (by rcases which with rfl | rfl; rfl; exact absurd rfl other)
      avoids := fun put => absurd put notPut
      names := by rcases which with rfl | rfl <;> simp [CodeUnit.Names]
      live := by simp
      nested := fun closes => absurd closes notClosure }
  refine puts.charts admits (fun _ => ⟨depth, closed, fun l live => Or.inl ?_,
    fun l mem _ => (puts.locals.symm ▸ mem : l ∈ t.locals), fun binds => absurd binds notBind⟩) trivial
    (fun jump => by simp [notJump] at jump) notPrep
  obtain ⟨mem, slot, position⟩ := live
  simp only [State.scope] at mem slot position
  rw [puts.locals] at mem
  exact ⟨⟨mem, by simp only [State.scope]; omega, by simp only [State.scope]; omega⟩,
    by simp only [State.scope]; omega⟩

/-- What is not live in `outer` is released, and no instruction is there for nothing. -/
structure Frees (outer : Scope) (F : Whole) (s r t : State) : Prop where
  closed : Perhaps (outer.closed < s.closed) F s r .popClosed (s.closed - outer.closed) 0
  stack : Perhaps (s.depth - outer.depth ≠ 0) F r t .popStack (s.depth - outer.depth) 0

theorem release_lays (outer : Scope) : Lays k (release outer) s fun _ t F => ∃ r, Frees outer F s r t := by
  have drop (q : State) : Lays q.builder.labels.size (pop (s.depth - outer.depth)) q fun _ t F =>
      Perhaps (s.depth - outer.depth ≠ 0) F q t .popStack (s.depth - outer.depth) 0 := by
    refine Lays.ite (fun none' => Lays.pure fun _ => Or.inr ⟨by omega, rfl⟩) fun some' => ?_
    exact (emit_lays _ _ _).mono fun _ _ _ puts => Or.inl ⟨some', puts⟩
  refine Lays.read (Lays.ite (fun more => ?_) fun none' => ?_)
  · refine (emit_lays _ _ _).seq fun _ r _ => (drop r).mono fun _ t F last first => ?_
    exact ⟨r, Or.inl ⟨more, first⟩, last⟩
  · exact (drop s).mono fun _ t F last => ⟨s, Or.inr ⟨none', rfl⟩, last⟩

namespace Frees

variable {outer : Scope} {r : State}

theorem kept (h : Frees outer F s r t) (around : outer.Around s.scope) :
    t.locals = s.locals ∧ t.enclosing = s.enclosing ∧ t.upvalueCount = s.upvalueCount ∧
      t.depth = outer.depth ∧ t.closed = outer.closed := by
  have depth : outer.depth ≤ s.depth := around.depth
  have closed : outer.closed ≤ s.closed := around.closed
  have first : r.locals = s.locals ∧ r.enclosing = s.enclosing ∧ r.upvalueCount = s.upvalueCount ∧
      r.depth = s.depth ∧ r.closed = outer.closed := by
    rcases h.closed with ⟨some', puts⟩ | ⟨none', rfl⟩
    · have depth := puts.depth
      have closed := puts.closed
      simp only [Instruction.stackEffect, Instruction.closedEffect] at depth closed
      exact ⟨puts.locals, puts.enclosing, puts.upvalueCount, by omega, by omega⟩
    · exact ⟨rfl, rfl, rfl, rfl, by omega⟩
  obtain ⟨locals, enclosing, upvalueCount, depth', closed'⟩ := first
  rcases h.stack with ⟨some', puts⟩ | ⟨none', rfl⟩
  · have depth := puts.depth
    have closed := puts.closed
    simp only [Instruction.stackEffect, Instruction.closedEffect] at depth closed
    exact ⟨puts.locals.trans locals, puts.enclosing.trans enclosing, puts.upvalueCount.trans upvalueCount,
      by omega, by omega⟩
  · exact ⟨locals, enclosing, upvalueCount, by omega, closed'⟩

theorem charts (h : Frees outer F s r t) (bears : g.Bears n s.scope) :
    Charts F.unit enclosing g exits s.ip s.scope t.ip t.scope [] := by
  have floor : g.floor ≤ s.depth := by
    have : g.floor + n ≤ s.depth := bears.floor
    omega
  have ascending : Ascending s.locals := bears.ascending
  have first : Charts F.unit enclosing g exits s.ip s.scope r.ip r.scope [] ∧ r.depth = s.depth ∧
      r.locals = s.locals := by
    rcases h.closed with ⟨-, puts⟩ | ⟨-, rfl⟩
    · have depth := puts.depth
      simp only [Instruction.stackEffect] at depth
      exact ⟨puts.frees (Or.inl rfl) floor ascending, by omega, puts.locals⟩
    · exact ⟨.refl, rfl, rfl⟩
  obtain ⟨charts, depth, locals⟩ := first
  rcases h.stack with ⟨-, puts⟩ | ⟨-, rfl⟩
  · exact charts.trans (puts.frees (Or.inr rfl) (depth ▸ floor) (locals ▸ ascending))
  · exact charts

end Frees

/-- What is not live in `outer` is released, and the names are forgotten. -/
def Closing (outer : Scope) (F : Whole) (s t : State) : Prop :=
  ∃ q r, Frees outer F s q r ∧ t = { r with locals := outer.locals }

theorem closeScope_lays (outer : Scope) :
    Lays k (closeScope outer) s fun _ t F => Closing outer F s t := by
  refine (release_lays outer).seq fun _ r _ => ?_
  refine Lays.turn rfl ⟨rfl, rfl⟩ fun F => ?_
  rintro ⟨q, frees⟩
  exact ⟨q, r, frees, rfl⟩

namespace Closing

variable {outer : Scope}

theorem scope (h : Closing outer F s t) (around : outer.Around s.scope) :
    t.scope = outer ∧ t.enclosing = s.enclosing ∧ t.upvalueCount = s.upvalueCount := by
  obtain ⟨q, r, frees, rfl⟩ := h
  obtain ⟨-, enclosing, upvalueCount, depth, closed⟩ := frees.kept around
  exact ⟨by simp only [State.scope, depth, closed], enclosing, upvalueCount⟩

theorem charts (h : Closing outer F s t) (around : outer.Around s.scope) (bears : g.Bears n s.scope) :
    Charts F.unit enclosing g exits s.ip s.scope t.ip t.scope [] := by
  obtain ⟨q, r, frees, rfl⟩ := h
  obtain ⟨locals, -, -, depth, -⟩ := frees.kept around
  have narrows : Scope.Narrows ⟨outer.locals, r.scope.depth, r.scope.closed⟩ r.scope := by
    refine .of_locals (fun l mem => ?_) fun l mem low =>
      around.above l (locals ▸ mem : l ∈ s.locals) (depth ▸ low)
    show l ∈ r.locals
    rw [locals]
    exact around.locals l mem
  exact (frees.charts bears).narrow narrows

/-- The instructions that release slots and closed cells. -/
theorem releases {slots cells : Nat} (h : Closing outer F s t) (slot : 1 ≤ slots) (cell : 1 ≤ cells)
    (depth : s.depth = outer.depth + slots) (closed : s.closed = outer.closed + cells) :
    F.unit.Holds s.ip .popClosed cells 0 ∧ F.unit.Holds (s.ip + 1) .popStack slots 0 ∧ t.ip = s.ip + 2 := by
  obtain ⟨q, r, ⟨release, drop⟩, rfl⟩ := h
  have count : s.depth - outer.depth = slots := by omega
  have count' : s.closed - outer.closed = cells := by omega
  rw [count'] at release
  rw [count] at drop
  obtain ⟨-, puts⟩ | ⟨none', -⟩ := release
  case inr => omega
  obtain ⟨-, puts'⟩ | ⟨none', -⟩ := drop
  case inr => omega
  exact ⟨puts.holds, puts.ip ▸ puts'.holds, puts'.ip.trans (by rw [puts.ip])⟩

/-- The instruction that releases `k` slots which no closure list knows of. -/
theorem drops (h : Closing outer F s t) (some' : 1 ≤ k) (depth : s.depth = outer.depth + k)
    (closed : s.closed = outer.closed) : F.unit.Holds s.ip .popStack k 0 := by
  obtain ⟨q, r, ⟨release, drop⟩, rfl⟩ := h
  have count : s.depth - outer.depth = k := by omega
  rw [count] at drop
  obtain ⟨more, -⟩ | ⟨-, rfl⟩ := release
  case inl => omega
  obtain ⟨-, puts⟩ | ⟨none', -⟩ := drop
  case inr => omega
  exact puts.holds

end Closing

/-- A jump to where `outer` is live. The depths known after it are those before. -/
theorem jumpOut_lays (outer : Scope) (label : Nat) : Lays k (jumpOut outer label) s fun _ t F =>
    ∃ address, F.Places label address ∧ ∀ exits, outer.Around s.scope → (address, outer) ∈ exits →
      Links F exits 0 0 s t [] := by
  have action : Lays s.builder.labels.size (do release outer; emitJump .jmp false label) s fun _ t F =>
      ∃ q r address, Frees outer F s q r ∧ F.Places label address ∧ Puts F r t .jmp address 0 := by
    refine (release_lays outer).seq fun _ r _ => (emitJump_lays rfl false label).mono fun _ t F => ?_
    rintro ⟨address, places, puts⟩ ⟨q, frees⟩
    exact ⟨q, r, address, frees, places, puts⟩
  refine Lays.read (action.seq fun _ t _ => Lays.turn rfl ⟨rfl, rfl⟩ fun F => ?_)
  rintro ⟨q, r, address, frees, places, puts⟩
  refine ⟨address, places, fun exits around mem => ?_⟩
  obtain ⟨locals, enclosing, upvalueCount, depth, closed⟩ := frees.kept around
  refine ⟨⟨puts.locals.trans locals, puts.enclosing.trans enclosing,
    puts.upvalueCount.trans upvalueCount, rfl, rfl⟩, fun {g e} bears _ => (frees.charts bears).trans ?_⟩
  have scope : r.scope = ⟨s.locals, outer.depth, outer.closed⟩ := by
    simp only [State.scope, locals, depth, closed]
  have jump : r.scope.Passes .jmp address 0 outer := by
    rw [scope]
    refine ⟨by simp [Instruction.stackEffect], by simp [Instruction.closedEffect], fun l live => Or.inl ?_,
      around.above, (by rintro ⟨⟩)⟩
    exact ⟨⟨around.locals l live.1, live.2⟩, live.2.1⟩
  have ip : t.ip = r.ip + 1 := puts.ip
  have admits : Admits F.unit e g r.scope .jmp address 0 none :=
    { ascending := by rw [scope]; exact bears.ascending
      floor := Or.inr rfl, room := fun _ => Or.inl rfl, avoids := by rintro ⟨⟩, names := by simp [CodeUnit.Names]
      live := by simp, nested := by rintro ⟨⟩ }
  show Charts _ _ _ _ r.ip r.scope t.ip _ _
  rw [ip]
  exact .one puts.holds admits (by rintro ⟨⟩) trivial (fun _ => ⟨outer, mem, jump⟩) (by rintro ⟨⟩)

/-! ## Statements -/

/-- The code from `s` to `t` may declare locals, after which `names` are visible, does `T` about names, and reaches
`exits` elsewhere. -/
structure Spans (F : Whole) (exits : List (Nat × Scope)) (s t : State) (names : List String) (T : Namings) :
    Prop where
  enclosing : t.enclosing = s.enclosing
  upvalueCount : t.upvalueCount = s.upvalueCount
  around : s.scope.Around t.scope
  bears : ∀ {g : Ground}, g.Bears 0 s.scope → g.Bears 0 t.scope
  charts : ∀ {g : Ground} {e : List (String × Nat)}, g.Bears 0 s.scope → s.enclosing = e →
    Charts F.unit e g exits s.ip s.scope t.ip t.scope T
  sees : t.sees = names

/-- Two states with the same temporaries have the same scope. -/
theorem Trades.scope (h : Trades n n s t) : t.scope = s.scope := by
  have depth := h.depth
  simp only [State.scope, h.locals, h.closed, show t.depth = s.depth by omega]

theorem Links.spans (h : Links F exits 0 0 s t T) : Spans F exits s t s.sees T where
  enclosing := h.trades.enclosing
  upvalueCount := h.trades.upvalueCount
  around := h.trades.scope ▸ .refl _
  bears := h.trades.bears
  charts := h.charts
  sees := h.trades.sees

namespace Spans

variable {T' : Namings} {names names' : List String}

theorem trans {r : State} (first : Spans F exits s r names T) (second : Spans F exits r t names' T') :
    Spans F exits s t names' (T ++ T') where
  enclosing := second.enclosing.trans first.enclosing
  upvalueCount := second.upvalueCount.trans first.upvalueCount
  around := first.around.trans second.around
  bears := fun bears => second.bears (first.bears bears)
  charts := fun bears same =>
    (first.charts bears same).trans (second.charts (first.bears bears) (first.enclosing.trans same))
  sees := second.sees

theorem as (h : Spans F exits s t names T) (same : names = names') (same' : T = T') :
    Spans F exits s t names' T' := same ▸ same' ▸ h

/-- Code that does nothing about names comes after other code. -/
theorem quietly {r : State} (first : Spans F exits s r names T) (second : Links F exits 0 0 r t []) :
    Spans F exits s t names T := (first.trans second.spans).as first.sees (List.append_nil T)

theorem places {l : Nat} (h : Spans F exits s t names T) : Spans F exits s (t.placed l) names T :=
  ⟨h.enclosing, h.upvalueCount, h.around, h.bears, h.charts, h.sees⟩

/-- An exit at the end. -/
theorem leave {ρ : Scope} (h : Spans F ((t.ip, ρ) :: exits) s t names T) (narrows : t.scope.Narrows ρ) :
    Spans F exits s t names T := by
  refine ⟨h.enclosing, h.upvalueCount, h.around, h.bears, fun bears same =>
    (h.charts bears same).discharge fun x ρ' mem => ?_, h.sees⟩
  rcases List.mem_cons.1 mem with here | mem
  · cases here
    exact Or.inr (Or.inr ⟨rfl, narrows⟩)
  · exact Or.inl mem

/-- What the code has declared is released. -/
theorem closing {r : State} (h : Spans F exits s r names T) (closing : Closing s.scope F r t) :
    Links F exits 0 0 s t T := by
  obtain ⟨scope, enclosing, upvalueCount⟩ := closing.scope h.around
  have locals : t.locals = s.locals := congrArg Scope.locals scope
  have depth : t.depth = s.depth := congrArg Scope.depth scope
  have closed : t.closed = s.closed := congrArg Scope.closed scope
  exact ⟨⟨locals, enclosing.trans h.enclosing, upvalueCount.trans h.upvalueCount, by omega, closed⟩,
    fun bears same => (h.charts bears same).quietly (closing.charts h.around (h.bears bears))⟩

end Spans

/-- What the code may rely on: the exit of the loop around it is among the exits, with a scope that is
around. -/
def Bound (F : Whole) (exit : Option LoopExit) (s : State) (exits : List (Nat × Scope)) : Prop :=
  ∀ e ∈ exit, e.scope.Around s.scope ∧ ∀ address, F.Places e.label address → (address, e.scope) ∈ exits

theorem Bound.later {exit : Option LoopExit} {exits' : List (Nat × Scope)} {names : List String}
    (h : Bound F exit s exits) (spans : Spans F exits' s t names T) : Bound F exit t exits :=
  fun e mem => ⟨(h e mem).1.trans spans.around, (h e mem).2⟩

/-- A loop gives its body an exit of its own. -/
theorem Bound.own {label address : Nat} {ρ : Scope} (places : F.Places label address)
    (around : ρ.Around s.scope) (mem : (address, ρ) ∈ exits) : Bound F (some ⟨label, ρ⟩) s exits := by
  rintro _ ⟨⟩
  exact ⟨around, fun address' places' => places.unique places' ▸ mem⟩

/-- The code of a statement, which leaves for `exit`, can be charted: `V` are the names that are visible after it,
and `T` is what it does about names. -/
def Settles (exit : Option LoopExit) (c : Compiler Unit) (V : List String → List String)
    (T : List String → Namings) : Prop :=
  ∀ s, Lays s.builder.labels.size c s fun _ t F => ∀ exits, Bound F exit s exits →
    Spans F exits s t (V s.sees) (T s.sees)

namespace Settles

variable {exit : Option LoopExit} {c d : Compiler Unit} {V V' : List String → List String}
  {T T' : List String → Namings}

theorem seq (first : Settles exit c V T) (second : Settles exit d V' T') :
    Settles exit (c >>= fun _ => d) (fun names => V' (V names)) fun names => T names ++ T' (V names) := fun s =>
  (first s).seq fun _ r _ => (second r).mono fun _ _ _ last before exits bound => by
    have first := before exits bound
    exact first.trans ((last exits (bound.later first)).as (by rw [first.sees]) (by rw [first.sees]))

theorem as (h : Settles exit c V T) (same : ∀ names, V names = V' names) (same' : ∀ names, T names = T' names) :
    Settles exit c V' T' := fun s =>
  (h s).mono fun _ _ _ spans exits bound => (spans exits bound).as (same _) (same' _)

theorem line {line : Nat} (h : Settles exit c V T) : Settles exit (do setLine line; c) V T := fun s =>
  Lays.line ((h { s with line }).mono fun _ _ _ spans exits bound => by
    obtain ⟨enclosing, upvalueCount, around, bears, charts, sees⟩ := spans exits bound
    exact ⟨enclosing, upvalueCount, around, bears, charts, sees⟩)

theorem nothing : Settles exit (pure ()) id quiet := fun s => Lays.pure fun _ _ _ => (Links.refl 0 s).spans

theorem throw (e : CompileError) : Settles exit (MonadExcept.throw e) V T := fun _ => Lays.throw

end Settles

section

variable {exit : Option LoopExit} {c : Compiler Unit} {V : List String → List String} {T : List String → Namings}

theorem Works.settles (h : Works 0 c 0 T) : Settles exit c id T := fun s =>
  (h s).mono fun _ _ _ links _ _ => links.any.spans

/-- A block in a scope of its own. -/
theorem inScope_lays (h : Settles exit c V T) :
    Lays k (inScope c) s fun _ t F => ∀ exits, Bound F exit s exits → Links F exits 0 0 s t (T s.sees) := by
  refine Lays.read ((h s).seq fun _ r _ => (closeScope_lays _).mono fun _ t F closing spans exits bound => ?_)
  exact (spans exits bound).closing closing

theorem inScope_settles (h : Settles exit c V T) : Settles exit (inScope c) id T := fun _ =>
  (inScope_lays h).mono fun _ _ _ links exits bound => (links exits bound).spans

end

/-- The code from `s` to `t` closes over the topmost slots, and these have names then. -/
structure Declares (names : List String) (F : Whole) (s t : State) : Prop where
  locals : t.locals = Compiler.bind names (s.depth - names.length) s.closed s.locals
  enclosing : t.enclosing = s.enclosing
  upvalueCount : t.upvalueCount = s.upvalueCount
  depth : t.depth = s.depth
  closed : t.closed = s.closed + names.length
  ip : t.ip = s.ip + 1
  holds : F.unit.Holds s.ip .closeVars names.length 0

theorem bindLocals_lays (names : List String) :
    Lays k (bindLocals names) s fun _ t F => Declares names F s t := by
  refine (emit_lays .closeVars names.length 0).seq fun _ r _ => Lays.turn rfl ⟨rfl, rfl⟩ fun F puts => ?_
  have depth := puts.depth
  have closed := puts.closed
  simp only [Instruction.stackEffect, Instruction.closedEffect] at depth closed
  have depth : r.depth = s.depth := by omega
  have closed : r.closed = s.closed + names.length := by omega
  refine ⟨?_, puts.enclosing, puts.upvalueCount, depth, closed, puts.ip, puts.holds⟩
  simp only [depth, closed, puts.locals, Nat.add_sub_cancel]

theorem ascending_bind {names : List String} {slot pos : Nat} {locals : List Local} (h : Ascending locals)
    (below : ∀ l ∈ locals, l.slot < slot ∧ l.closurePos < pos) :
    Ascending (Compiler.bind names slot pos locals) := by
  induction names generalizing slot pos locals with
  | nil => exact h
  | cons name rest ih =>
    refine ih (List.pairwise_cons.2 ⟨below, h⟩) fun l mem => ?_
    rcases List.mem_cons.1 mem with rfl | mem
    · exact ⟨Nat.lt_succ_self _, Nat.lt_succ_self _⟩
    · have := below l mem
      omega

/-- A new local has the place in the closure list that its slot has among the new slots. -/
theorem mem_bind_place {names : List String} {slot pos : Nat} {locals : List Local} {l : Local}
    (h : l ∈ Compiler.bind names slot pos locals) :
    l ∈ locals ∨ ∃ i < names.length, l.slot = slot + i ∧ l.closurePos = pos + i := by
  induction names generalizing slot pos locals with
  | nil => exact Or.inl h
  | cons name rest ih =>
    rcases ih h with h | ⟨i, inside, slot', pos'⟩
    · rcases List.mem_cons.1 h with rfl | h
      · exact Or.inr ⟨0, Nat.succ_pos _, rfl, rfl⟩
      · exact Or.inl h
    · exact Or.inr ⟨i + 1, Nat.succ_lt_succ inside, by omega, by omega⟩

theorem names_bind (names : List String) (slot pos : Nat) (locals : List Local) :
    (Compiler.bind names slot pos locals).map Local.name = names.reverse ++ locals.map Local.name := by
  induction names generalizing slot pos locals with
  | nil => rfl
  | cons name rest ih =>
    show (Compiler.bind rest (slot + 1) (pos + 1) (⟨name, slot, pos⟩ :: locals)).map Local.name = _
    rw [ih, List.reverse_cons, List.append_assoc]
    rfl

theorem mem_bind_old {names : List String} {slot pos : Nat} {locals : List Local} {l : Local}
    (h : l ∈ locals) : l ∈ Compiler.bind names slot pos locals := by
  induction names generalizing slot pos locals with
  | nil => exact h
  | cons name rest ih => exact ih (List.mem_cons_of_mem _ h)

/-- Every new slot is that of a local. -/
theorem exists_mem_bind {names : List String} {slot pos : Nat} {locals : List Local} {i : Nat}
    (inside : i < names.length) : ∃ l ∈ Compiler.bind names slot pos locals, l.slot = slot + i := by
  induction names generalizing slot pos locals i with
  | nil => exact absurd inside (Nat.not_lt_zero i)
  | cons name rest ih =>
    cases i with
    | zero =>
      refine ⟨⟨name, slot, pos⟩, ?_, rfl⟩
      show _ ∈ Compiler.bind rest (slot + 1) (pos + 1) _
      exact mem_bind_old List.mem_cons_self
    | succ i =>
      obtain ⟨l, mem, same⟩ : ∃ l ∈ Compiler.bind rest (slot + 1) (pos + 1) (⟨name, slot, pos⟩ :: locals),
        l.slot = slot + 1 + i := ih (Nat.lt_of_succ_lt_succ inside)
      exact ⟨l, mem, by omega⟩

namespace Declares

variable {names : List String}

/-- The locals after it: the old ones, and one for every topmost slot. -/
theorem mem (h : Declares names F s t) {l : Local} (mem : l ∈ t.locals) : l ∈ s.locals ∨
    ∃ i < names.length, l.slot = s.depth - names.length + i ∧ l.closurePos = s.closed + i :=
  mem_bind_place (h.locals ▸ mem)

theorem bears (h : Declares names F s t) (bears : g.Bears names.length s.scope) : g.Bears 0 t.scope := by
  have floor : g.floor + names.length ≤ s.depth := bears.floor
  have slots : ∀ l ∈ s.locals, l.slot + names.length < s.depth := bears.slots
  have positions : ∀ l ∈ s.locals, l.closurePos < s.closed := bears.positions
  have inside {l : Local} (mem : l ∈ t.locals) : l.slot < s.depth ∧ l.closurePos < s.closed + names.length := by
    rcases h.mem mem with mem | ⟨i, inside, slot, pos⟩
    · have := slots l mem
      have := positions l mem
      omega
    · omega
  refine ⟨?_, fun l mem => ?_, fun l mem => ?_, ?_, fun l mem hidden => ?_⟩
  · simp only [State.scope, h.depth]
    omega
  · simpa only [State.scope, h.depth, Nat.add_zero] using (inside mem).1
  · simpa only [State.scope, h.closed] using (inside mem).2
  · simp only [State.scope, h.locals]
    refine ascending_bind bears.ascending fun l mem => ⟨?_, positions l mem⟩
    have := slots l mem
    omega
  · rcases h.mem mem with mem | ⟨i, inside, slot, pos⟩
    · exact bears.apart l mem hidden
    · have := g.below _ hidden
      omega

theorem sees (h : Declares names F s t) : t.sees = names.reverse ++ s.sees := by
  simp only [State.sees, Scope.visible, State.scope, h.locals, h.enclosing, names_bind, List.append_assoc]

theorem charts (h : Declares names F s t) (bears : g.Bears names.length s.scope) (same : s.enclosing = enclosing) :
    Charts F.unit enclosing g exits s.ip s.scope t.ip t.scope [(.declare names, s.sees)] := by
  subst same
  have floor : g.floor + names.length ≤ s.depth := bears.floor
  have admits : Admits F.unit s.enclosing g s.scope .closeVars names.length 0 (some (.declare names)) :=
    { ascending := bears.ascending
      floor := Or.inl (by simp only [State.scope]; omega)
      room := fun _ => Or.inr (by simpa [Opcode.touched, Opcode.operands, State.scope] using floor)
      avoids := by rintro ⟨⟩, names := ⟨rfl, rfl⟩, live := fun _ l mem => bears.live mem, nested := by rintro ⟨⟩ }
  have declared : s.scope.Declared t.scope (some (.declare names)) := fun l =>
    ⟨fun live => h.locals ▸ live.1, fun mem => (h.bears bears).live (h.locals.symm ▸ mem : l ∈ t.locals)⟩
  rw [h.ip]
  refine .one h.holds admits (fun _ => ⟨?_, ?_, fun l live => ?_, fun l mem _ => ?_, fun _ =>
    ⟨bears.slots, fun i low high => ?_⟩⟩) declared (by rintro ⟨⟩) (by rintro ⟨⟩)
  · simp [State.scope, Instruction.stackEffect, h.depth]
  · simp [State.scope, Instruction.closedEffect, h.closed]
  · rcases h.mem live.1 with mem | ⟨i, inside, slot, pos⟩
    · exact Or.inl ⟨bears.live mem, by simpa [Opcode.touched, Opcode.operands] using bears.slots l mem⟩
    · exact Or.inr ⟨rfl, by simp only [State.scope]; omega, by simp only [State.scope]; omega⟩
  · show l ∈ t.locals
    rw [h.locals]
    exact mem_bind_old mem
  · simp only [State.scope] at low high ⊢
    obtain ⟨l, mem, slot⟩ : ∃ l ∈ Compiler.bind names (s.depth - names.length) s.closed s.locals,
      l.slot = s.depth - names.length + (i + names.length - s.depth) := exists_mem_bind (by omega)
    exact ⟨l, h.locals ▸ mem, by omega⟩

end Declares

/-- Values and then names for them. -/
theorem Declares.spans {names : List String} (h : Declares names F s t) {r : State}
    (links : Links F exits 0 n r s T) (enough : names.length ≤ n) :
    Spans F exits r t (names.reverse ++ r.sees) (T ++ [(Naming.declare names, r.sees)]) := by
  have trades := links.trades
  have depth := trades.depth
  have bears {g : Ground} (bears : g.Bears 0 r.scope) : g.Bears names.length s.scope :=
    (trades.bears bears).fewer enough
  refine ⟨h.enclosing.trans trades.enclosing, h.upvalueCount.trans trades.upvalueCount,
    ⟨?_, ?_, fun l mem => ?_, fun l mem low => ?_⟩,
    fun old => h.bears (bears old), fun old same => (links.charts old same).trans
      ((h.charts (bears old) (trades.enclosing.trans same)).as (by rw [trades.sees])),
    by rw [h.sees, trades.sees]⟩
  · simp only [State.scope, h.depth]
    omega
  · simp only [State.scope, h.closed, trades.closed]
    omega
  · show l ∈ t.locals
    rw [h.locals]
    exact mem_bind_old (trades.locals ▸ mem)
  · rcases h.mem mem with mem | ⟨i, inside, slot, pos⟩
    · exact (trades.locals ▸ mem : l ∈ r.locals)
    · simp only [State.scope] at low
      omega

/-! ## Loops and branches -/

theorem negate_works (n : Nat) : Works (n + 1) (emit .not 0 0) (n + 1) quiet := emit_single .not rfl rfl rfl n

section

variable {cond : Compiler Unit} {body : Option LoopExit → Compiler Unit} {V : List String → List String}
  {C B : List String → Namings}

theorem whileCode_works (test : Works 0 cond 1 C) (bodies : ∀ exit, Settles exit (body exit) V B) :
    Works 0 (whileCode cond body) 0 fun names => C names ++ B names := by
  intro s
  refine Lays.label (Lays.label ?_)
  have differ : s.builder.labels.size ≠ s.labelled.builder.labels.size := by
    rw [size_labelled]
    omega
  refine Lays.place (Nat.le_refl _) (awaits_labelled s).labelled ?_
  refine (test _).seq fun _ s₁ g₁ => (negate_works 0 _).seq fun _ s₂ g₂ => (emitJump_lays rfl false _).seq
    fun _ s₃ g₃ => Lays.read ?_
  refine (inScope_lays (bodies _)).seq fun _ s₄ g₄ => (emitJump_lays rfl false _).seq fun _ s₅ g₅ => ?_
  have done := (((((awaits_labelled s.labelled).placed differ).grown g₁).grown g₂).grown g₃).grown g₄
    |>.grown g₅
  refine Lays.place_last (by rw [size_labelled]; omega) done ?_
  rintro F there ⟨_, place₅, puts₅⟩ links₄ ⟨_, place₃, puts₃⟩ links₂ links₁ here
  obtain rfl := place₃.unique there
  obtain rfl := place₅.unique here
  have into : Links F [(s.ip, s.scope), (s₅.ip, s₃.scope)] 0 0 s s₃ (C s.sees) :=
    (links₁.placed.labelled.labelled.any.quietly links₂.any).quietly (puts₃.jmpTrue (by simp) (.refl _) 0)
  have inside : Links F [(s.ip, s.scope), (s₅.ip, s₃.scope)] 0 0 s₃ s₄ (B s₃.sees) :=
    links₄ _ (.own there (.refl _) (List.mem_cons_of_mem _ List.mem_cons_self))
  have loop := into.trans inside
  have back : Trades 0 0 s₄ s₅ := puts₅.trades rfl rfl
  have again : Links F [(s.ip, s.scope), (s₅.ip, s₃.scope)] 0 0 s₄ s₅ [] :=
    puts₅.jmp List.mem_cons_self (loop.trades.trans back).narrows' 0
  have whole := ((loop.quietly again).opening (.refl _)).closing (inside.trades.trans back).narrows
  exact whole.places.as (by rw [into.trades.sees])

theorem repeatCode_works (test : Works 0 cond 1 C) (bodies : ∀ exit, Settles exit (body exit) V B) :
    Works 0 (repeatCode cond body) 0 fun names => B names ++ C (V names) := by
  intro s
  refine Lays.label (Lays.label (Lays.label ?_))
  have first : s.labelled.builder.labels.size = s.builder.labels.size + 1 := size_labelled s
  have second : s.labelled.labelled.builder.labels.size = s.builder.labels.size + 2 := by
    rw [size_labelled, first]
  refine Lays.place (Nat.le_refl _) (awaits_labelled s).labelled.labelled (Lays.read ?_)
  have exit := (awaits_labelled s.labelled).labelled.placed (j := s.builder.labels.size) (by omega)
  have done := (awaits_labelled s.labelled.labelled).placed (j := s.builder.labels.size) (by omega)
  have whole {F : Whole} {t : State} {T : Namings}
      (h : Links F [] 0 0 (s.labelled.labelled.labelled.placed s.builder.labels.size) t T) :
      Links F [] 0 0 s t T := h.placed.labelled.labelled.labelled
  have ip : (s.labelled.labelled.labelled.placed s.builder.labels.size).ip = s.ip := by simp
  have sees : (s.labelled.labelled.labelled.placed s.builder.labels.size).sees = s.sees := by simp
  generalize s.labelled.labelled.labelled.placed s.builder.labels.size = p at exit done whole ip sees ⊢
  refine (bodies _ _).seq fun _ s₁ g₁ => (test _).seq fun _ s₂ g₂ => (emitJump_lays rfl false _).seq
    fun _ s₃ g₃ => (jumpOut_lays _ _).seq fun _ s₄ g₄ => ?_
  have exit := (((exit.grown g₁).grown g₂).grown g₃).grown g₄
  have done := (((done.grown g₁).grown g₂).grown g₃).grown g₄
  refine Lays.place (by omega) done ((closeScope_lays _).seq fun _ s₅ g₅ => ?_)
  refine Lays.place_last (by omega) ((exit.placed (by omega)).grown g₅) ?_
  rintro F there closing₅ here ⟨address, place₄, links₄⟩ ⟨_, place₃, puts₃⟩ links₂ spans₁ start
  obtain rfl := place₃.unique here
  obtain rfl : address = p.ip := (place₄.unique start).trans ip.symm
  -- the exits: the end of the test, the beginning of the loop, and its end
  let exits := [(s₄.ip, s₃.scope), (p.ip, p.scope), (s₅.ip, p.scope)]
  have leaves : (s₅.ip, p.scope) ∈ exits := List.mem_cons_of_mem _ (List.mem_cons_of_mem _ List.mem_cons_self)
  have inside := spans₁ exits (.own there (.refl _) leaves)
  have tested : Links F exits 0 0 s₁ s₃ (C s₁.sees) :=
    links₂.any.quietly (puts₃.jmpTrue List.mem_cons_self (.refl _) 0)
  have before := inside.trans tested.spans
  have again : Links F exits 0 0 s₃ s₄ [] :=
    links₄ exits before.around (List.mem_cons_of_mem _ List.mem_cons_self)
  have loop := (before.quietly again).leave again.trades.narrows
  have closed := loop.places.closing closing₅
  exact (whole ((closed.opening (.refl _)).closing closed.trades.narrows).places).as (by rw [inside.sees, sees])

end

/-- What the code of a clause may rely on: the end of the statement is among the exits. -/
def Done (F : Whole) (done : Nat) (s : State) (exits : List (Nat × Scope)) : Prop :=
  ∀ address, F.Places done address → (address, s.scope) ∈ exits

/-- The code of clauses, which go to `done` and leave for `exit`, can be charted. -/
def Decides (exit : Option LoopExit) (done : Nat) (c : Compiler Unit) (T : List String → Namings) : Prop :=
  ∀ s, Lays s.builder.labels.size c s fun _ t F => ∀ exits, Bound F exit s exits → Done F done s exits →
    Links F exits 0 0 s t (T s.sees)

theorem clause_chooses {exit : Option LoopExit} {done : Nat} {more : Bool} {cond body rest : Compiler Unit}
    {V : List String → List String} {C B R : List String → Namings} (test : Works 0 cond 1 C)
    (block : Settles exit body V B) (others : Decides exit done rest R) :
    Decides exit done (do
      let next ← newLabel
      cond
      emit .not 0 0
      emitJump .jmpTrue false next
      inScope body
      if more then emitJump .jmp false done
      placeLabel next
      rest) fun names => C names ++ B names ++ R names := by
  intro s
  refine Lays.label ((test _).seq fun _ s₁ g₁ => (negate_works 0 _).seq fun _ s₂ g₂ =>
    (emitJump_lays rfl false _).seq fun _ s₃ g₃ => (inScope_lays block).seq fun _ s₄ g₄ => ?_)
  have next := ((((awaits_labelled s).grown g₁).grown g₂).grown g₃).grown g₄
  -- from the end of the clause on
  have after (q : State) (awaits : q.Awaits s.builder.labels.size) :
      Lays s.builder.labels.size (do placeLabel s.builder.labels.size; rest) q fun _ t F =>
        F.Places s.builder.labels.size q.ip ∧ ∀ exits, Bound F exit q exits → Done F done q exits →
          Links F exits 0 0 q t (R q.sees) :=
    Lays.place (Nat.le_refl _) awaits ((others _).mono fun _ t F links here =>
      ⟨here, fun exits bound done => (links exits bound done).placed⟩)
  -- the clause, with the rest after it, if it ends at `q`
  have clause {F : Whole} {q t : State} {address : Nat} (links₁ : Links F [] 0 1 s.labelled s₁ (C s.sees))
      (links₂ : Links F [] 1 1 s₁ s₂ []) (puts₃ : Puts F s₂ s₃ .jmpTrue address 0) (here : address = q.ip)
      (block : ∀ exits, Bound F exit s₃ exits → Links F exits 0 0 s₃ s₄ (B s₃.sees))
      (ends : ∀ exits, Done F done s exits → Trades 0 0 s s₄ → Links F exits 0 0 s₄ q [])
      (rest : ∀ exits, Bound F exit q exits → Done F done q exits → Links F exits 0 0 q t (R q.sees))
      (exits : List (Nat × Scope)) (bound : Bound F exit s exits) (done : Done F done s exits) :
      Links F exits 0 0 s t (C s.sees ++ B s.sees ++ R s.sees) := by
    subst here
    have tested : Links F [(q.ip, s₃.scope)] 0 0 s s₃ (C s.sees) :=
      (links₁.labelled.quietly links₂).any.quietly (puts₃.jmpTrue List.mem_cons_self (.refl _) 0)
    have inside := block exits (bound.later tested.spans)
    have end' := ends exits done (tested.trades.trans inside.trades)
    have left := inside.quietly end'
    have all : Links F exits 0 0 s q (C s.sees ++ B s₃.sees) :=
      ((tested.weaken (by simp)).trans (left.weaken fun _ => List.mem_cons_of_mem _)).closing
        left.trades.narrows
    have others := rest exits (bound.later all.spans) fun address places => by
      rw [all.trades.scope]
      exact done address places
    exact (all.trans others).as (by rw [all.trades.sees, tested.trades.sees])
  refine Lays.ite (fun _ => ?_) fun _ => ?_
  · refine (emitJump_lays rfl false done).seq fun _ s₅ g₅ => (after s₅ (next.grown g₅)).imp fun _ t F => ?_
    rintro ⟨here, rest⟩ ⟨_, place₅, puts₅⟩ links₄ ⟨_, place₃, puts₃⟩ links₂ links₁
    refine clause links₁ links₂ puts₃ (place₃.unique here) links₄ (fun exits done trades => ?_) rest
    have back : Trades 0 0 s₄ s₅ := puts₅.trades rfl rfl
    exact puts₅.jmp (done _ place₅) (trades.trans back).narrows' 0
  · refine (after s₄ next).imp fun _ t F => ?_
    rintro ⟨here, rest⟩ links₄ ⟨_, place₃, puts₃⟩ links₂ links₁
    exact clause links₁ links₂ puts₃ (place₃.unique here) links₄ (fun _ _ _ => .refl 0 s₄) rest

theorem if_settles {exit : Option LoopExit} {clauses : Nat → Compiler Unit} {otherwise : Compiler Unit}
    {C O : List String → Namings} (choose : ∀ done, Decides exit done (clauses done) C)
    (other : ∀ s, Lays s.builder.labels.size otherwise s fun _ t F =>
      ∀ exits, Bound F exit s exits → Links F exits 0 0 s t (O s.sees)) : Settles exit (do
      let done ← newLabel
      clauses done
      otherwise
      placeLabel done) id fun names => C names ++ O names := by
  intro s
  refine Lays.label ((choose _ _).seq fun _ s₁ g₁ => (other s₁).seq fun _ s₂ g₂ => ?_)
  refine Lays.place_last (Nat.le_refl _) (((awaits_labelled s).grown g₁).grown g₂) ?_
  intro F here links₂ links₁ exits bound
  let exits' := (s₂.ip, s.scope) :: exits
  have bound' : Bound F exit s exits' := fun e mem =>
    ⟨(bound e mem).1, fun address places => List.mem_cons_of_mem _ ((bound e mem).2 address places)⟩
  have first : Links F exits' 0 0 s s₁ (C s.sees) :=
    (links₁ exits' bound' fun address places => places.unique here ▸ List.mem_cons_self).labelled
  have all := first.trans (links₂ exits' (bound'.later first.spans))
  exact ((all.closing all.trades.narrows).places.as (by rw [first.trades.sees])).spans

/-! ## Numeric loops -/

theorem loadConstant_lays (v : Value) : Lays k (loadConstant v) s fun _ t F =>
    ∃ i w, F.unit.constants[i]? = some w ∧ (w == v ∨ w = v) ∧ Puts F s t .loadK i 0 :=
  (addConstant_lays v).seq fun i r _ => (emit_lays .loadK i 0).mono fun _ t F puts stocks => by
    obtain ⟨w, found, equal⟩ := stocks.found
    obtain ⟨builder, rfl, code⟩ := stocks.same
    have ip : State.ip { s with builder } = s.ip := by rw [State.ip, code]; rfl
    obtain ⟨locals, enclosing, upvalueCount, depth, closed, ip', holds⟩ := puts
    exact ⟨i, w, found, equal, locals, enclosing, upvalueCount, depth, closed, ip ▸ ip', ip ▸ holds⟩

/-- The constant that was loaded is a number that equals zero. -/
theorem zero_lays : Lays k (loadConstant (.number 0.0)) s fun _ t F =>
    F.unit.PushesZero s.ip ∧ t.ip = s.ip + 1 ∧ t.depth = s.depth + 1 :=
  (loadConstant_lays _).imp fun _ t F => by
    rintro ⟨i, w, found, equal, puts⟩
    have depth := puts.depth
    simp only [Instruction.stackEffect] at depth
    exact ⟨⟨i, w, puts.holds, found, equal⟩, puts.ip, by omega⟩

theorem getSlot_lays (slot : Nat) : Lays k (getSlot slot) s fun _ t F =>
    Puts F s t .getStack (s.depth - slot) 0 := Lays.read (emit_lays _ _ _)

theorem Puts.deeper {a : Nat} (puts : Puts F s t .getStack a 0) : t.depth = s.depth + 1 := by
  have depth := puts.depth
  simp only [Instruction.stackEffect] at depth
  omega

/-- A binary operator takes two slots and leaves one. -/
theorem Puts.pairs {op : Opcode} {d : Nat} (puts : Puts F s t op 0 0)
    (two : Instruction.stackEffect op 0 0 = -1) (deep : s.depth = d + 1) : t.depth = d := by
  have depth := puts.depth
  omega

theorem Puts.at {op : Opcode} {a b i : Nat} (puts : Puts F s t op a b) (here : s.ip = i) :
    F.unit.Holds i op a b := here ▸ puts.holds

/-- The slot that is copied, counted from the top. -/
theorem Puts.copies {slot i a : Nat} (puts : Puts F s t .getStack (s.depth - slot) 0) (here : s.ip = i)
    (deep : slot + a = s.depth) : F.unit.Holds i .getStack a 0 := by
  have same : s.depth - slot = a := by omega
  exact same ▸ puts.at here

theorem loopGuard_lays (v limit step : Nat) : Lays k (loopGuard v limit step) s fun _ t F =>
    v + 3 = s.depth → limit + 2 = s.depth → step + 1 = s.depth → F.unit.Guard s.ip ∧ t.ip = s.ip + 15 := by
  refine zero_lays.seq fun _ s₁ _ => (getSlot_lays step).seq fun _ s₂ _ => (emit_lays .less 0 0).seq
    fun _ s₃ _ => (getSlot_lays v).seq fun _ s₄ _ => (getSlot_lays limit).seq fun _ s₅ _ =>
    (emit_lays .lessEq 0 0).seq fun _ s₆ _ => (emit_lays .and 0 0).seq fun _ s₇ _ =>
    (getSlot_lays step).seq fun _ s₈ _ => zero_lays.seq fun _ s₉ _ => (emit_lays .less 0 0).seq fun _ s₁₀ _ =>
    (getSlot_lays limit).seq fun _ s₁₁ _ => (getSlot_lays v).seq fun _ s₁₂ _ =>
    (emit_lays .lessEq 0 0).seq fun _ s₁₃ _ => (emit_lays .and 0 0).seq fun _ s₁₄ _ =>
    (emit_lays .or 0 0).mono fun _ s₁₅ F puts₁₅ puts₁₄ puts₁₃ puts₁₂ puts₁₁ puts₁₀ zero₉ puts₈ puts₇ puts₆ puts₅
      puts₄ puts₃ puts₂ zero₁ current bound increment => ?_
  obtain ⟨zero₉, ip₉, depth₉⟩ := zero₉
  obtain ⟨zero₁, ip₁, depth₁⟩ := zero₁
  have depth₂ : s₂.depth = s.depth + 2 := by rw [puts₂.deeper, depth₁]
  have depth₃ : s₃.depth = s.depth + 1 := puts₃.pairs rfl depth₂
  have depth₄ : s₄.depth = s.depth + 2 := by rw [puts₄.deeper, depth₃]
  have depth₅ : s₅.depth = s.depth + 3 := by rw [puts₅.deeper, depth₄]
  have depth₆ : s₆.depth = s.depth + 2 := puts₆.pairs rfl depth₅
  have depth₇ : s₇.depth = s.depth + 1 := puts₇.pairs rfl depth₆
  have depth₈ : s₈.depth = s.depth + 2 := by rw [puts₈.deeper, depth₇]
  have depth₉ : s₉.depth = s.depth + 3 := by rw [depth₉, depth₈]
  have depth₁₀ : s₁₀.depth = s.depth + 2 := puts₁₀.pairs rfl depth₉
  have depth₁₁ : s₁₁.depth = s.depth + 3 := by rw [puts₁₁.deeper, depth₁₀]
  have ip₂ : s₂.ip = s.ip + 2 := by rw [puts₂.ip, ip₁]
  have ip₃ : s₃.ip = s.ip + 3 := by rw [puts₃.ip, ip₂]
  have ip₄ : s₄.ip = s.ip + 4 := by rw [puts₄.ip, ip₃]
  have ip₅ : s₅.ip = s.ip + 5 := by rw [puts₅.ip, ip₄]
  have ip₆ : s₆.ip = s.ip + 6 := by rw [puts₆.ip, ip₅]
  have ip₇ : s₇.ip = s.ip + 7 := by rw [puts₇.ip, ip₆]
  have ip₈ : s₈.ip = s.ip + 8 := by rw [puts₈.ip, ip₇]
  have ip₉ : s₉.ip = s.ip + 9 := by rw [ip₉, ip₈]
  have ip₁₀ : s₁₀.ip = s.ip + 10 := by rw [puts₁₀.ip, ip₉]
  have ip₁₁ : s₁₁.ip = s.ip + 11 := by rw [puts₁₁.ip, ip₁₀]
  have ip₁₂ : s₁₂.ip = s.ip + 12 := by rw [puts₁₂.ip, ip₁₁]
  have ip₁₃ : s₁₃.ip = s.ip + 13 := by rw [puts₁₃.ip, ip₁₂]
  have ip₁₄ : s₁₄.ip = s.ip + 14 := by rw [puts₁₄.ip, ip₁₃]
  have ip₁₅ : s₁₅.ip = s.ip + 15 := by rw [puts₁₅.ip, ip₁₄]
  refine ⟨?_, ip₁₅⟩
  exact { zero := zero₁
          step := puts₂.copies ip₁ (by rw [depth₁, ← increment])
          up := puts₃.at ip₂
          current := puts₄.copies ip₃ (by rw [depth₃, ← current])
          limit := puts₅.copies ip₄ (by rw [depth₄, ← bound])
          below := puts₆.at ip₅
          rising := puts₇.at ip₆
          step' := puts₈.copies ip₇ (by rw [depth₇, ← increment])
          zero' := ip₈ ▸ zero₉
          down := puts₁₀.at ip₉
          limit' := puts₁₁.copies ip₁₀ (by rw [depth₁₀, ← bound])
          current' := puts₁₂.copies ip₁₁ (by rw [depth₁₁, ← current])
          above := puts₁₃.at ip₁₂
          falling := puts₁₄.at ip₁₃
          either := puts₁₅.at ip₁₄ }

theorem loopGuard_works (v limit step : Nat) : Works 0 (loopGuard v limit step) 1 quiet := by
  refine (loadConstant_works 0 _).seq ((getSlot_works 1 _).seq ((emit_pair .less rfl rfl rfl 0).seq
    ((getSlot_works 1 _).seq ((getSlot_works 2 _).seq ((emit_pair .lessEq rfl rfl rfl 1).seq
    ((emit_pair .and rfl rfl rfl 0).seq ?_))))))
  exact (getSlot_works 1 _).seq ((loadConstant_works 2 _).seq ((emit_pair .less rfl rfl rfl 1).seq
    ((getSlot_works 2 _).seq ((getSlot_works 3 _).seq ((emit_pair .lessEq rfl rfl rfl 2).seq
    ((emit_pair .and rfl rfl rfl 1).seq (emit_pair .or rfl rfl rfl 0)))))))

/-- The beginning of a numeric loop: the guard, and a fresh variable. -/
def forHead (var : String) (v limit step exit : Nat) : Compiler Unit := do
  loopGuard v limit step
  emit .not 0 0
  emitJump .jmpTrue false exit
  getSlot v
  bindLocals [var]

/-- The end of a numeric loop: the variable of the iteration is released, and the control slot counts on. -/
def forTail (control : Scope) (v step top : Nat) : Compiler Unit := do
  closeScope control
  getSlot v
  getSlot step
  emit .add 0 0
  putSlot v
  emitJump .jmp false top

theorem numericForCode_eq (var : String) (start limit step : Compiler Unit)
    (body : Option LoopExit → Compiler Unit) : numericForCode var start limit step body = (do
      let around ← scope
      start
      limit
      step
      emit .forPrep 0 0
      let control ← scope
      let top ← newLabel
      let exit ← newLabel
      placeLabel top
      forHead var (control.depth - 3) (control.depth - 2) (control.depth - 1) exit
      body (some ⟨exit, control⟩)
      forTail control (control.depth - 3) (control.depth - 1) top
      placeLabel exit
      closeScope around) := by
  simp only [numericForCode, forHead, forTail, bind_assoc]

/-- The code from `p`, with the control slots on top, to `q`, where the body begins. -/
structure Begins (var : String) (exit : Nat) (F : Whole) (p q : State) : Prop where
  guard : F.unit.Guard p.ip
  ends : F.unit.Holds (p.ip + 15) .not 0 0
  leave : ∃ address, F.Places exit address ∧ F.unit.Holds (p.ip + 16) .jmpTrue address 0 ∧
    ∀ {g : Ground} {e : List (String × Nat)}, g.Bears 0 p.scope → p.enclosing = e →
      Charts F.unit e g [(address, p.scope)] p.ip p.scope q.ip q.scope [(.declare [var], p.sees)]
  read : F.unit.Holds (p.ip + 17) .getStack 3 0
  bind : F.unit.Holds (p.ip + 18) .closeVars 1 0
  ip : q.ip = p.ip + 19
  enclosing : q.enclosing = p.enclosing
  upvalueCount : q.upvalueCount = p.upvalueCount
  locals : q.locals = ⟨var, p.depth, p.closed⟩ :: p.locals
  depth : q.depth = p.depth + 1
  closed : q.closed = p.closed + 1

theorem forHead_lays (var : String) (exit : Nat) {v limit step : Nat} : Lays k (forHead var v limit step exit) s
    fun _ t F => v + 3 = s.depth → limit + 2 = s.depth → step + 1 = s.depth → Begins var exit F s t := by
  have guard := (loopGuard_lays (k := s.builder.labels.size) (s := s) v limit step).and
    (loopGuard_works v limit step s)
  refine guard.seq fun _ s₁ _ => ((emit_lays .not 0 0).and (negate_works 0 s₁)).seq fun _ s₂ _ =>
    (emitJump_lays rfl false exit).seq fun _ s₃ _ => ((getSlot_lays v).and (getSlot_works 0 v s₃)).seq
    fun _ s₄ _ => (bindLocals_lays [var]).mono fun _ t F => ?_
  rintro binds ⟨puts₄, links₄⟩ ⟨address, places, puts₃⟩ ⟨puts₂, links₂⟩ ⟨guard, links₁⟩ current bound increment
  obtain ⟨guard, ip₁⟩ := guard current bound increment
  have ip₂ : s₂.ip = s.ip + 16 := by rw [puts₂.ip, ip₁]
  have ip₃ : s₃.ip = s.ip + 17 := by rw [puts₃.ip, ip₂]
  have ip₄ : s₄.ip = s.ip + 18 := by rw [puts₄.ip, ip₃]
  have tested : Links F [(address, s.scope)] 0 0 s s₃ [] := by
    have links := links₁.trans links₂
    exact links.any.trans (puts₃.jmpTrue List.mem_cons_self (links.trades.trans (puts₃.trades rfl rfl)).narrows' 0)
  have before := tested.trans links₄.any
  have scope₃ := tested.trades.scope
  have depth₃ : s₃.depth = s.depth := congrArg Scope.depth scope₃
  have depth₄ : s₄.depth = s.depth + 1 := puts₄.deeper.trans (congrArg (· + 1) depth₃)
  have closed₄ : s₄.closed = s.closed := before.trades.closed
  refine ⟨guard, puts₂.at ip₁, ⟨address, places, puts₃.at ip₂, fun {g e} bears same => ?_⟩,
    puts₄.copies ip₃ (by rw [depth₃, current]), ip₄ ▸ binds.holds, by rw [binds.ip, ip₄],
    binds.enclosing.trans before.trades.enclosing, binds.upvalueCount.trans before.trades.upvalueCount, ?_,
    binds.depth.trans depth₄, by rw [binds.closed, closed₄]; rfl⟩
  · have declares : Charts F.unit e g [(address, s.scope)] s₄.ip s₄.scope t.ip t.scope [(.declare [var], s₄.sees)] :=
      binds.charts (before.trades.bears bears) (before.trades.enclosing.trans same)
    exact ((before.charts bears same).trans declares).as (by rw [before.trades.sees]; rfl)
  · rw [binds.locals, before.trades.locals, depth₄, closed₄]
    rfl

namespace Begins

variable {var : String} {exit : Nat} {p q r : State}

theorem around (h : Begins var exit F p q) : p.scope.Around q.scope := by
  refine ⟨?_, ?_, fun l mem => ?_, fun l mem low => ?_⟩ <;>
    simp only [State.scope, h.depth, h.closed, h.locals] at *
  · omega
  · omega
  · exact List.mem_cons_of_mem _ mem
  · exact (List.mem_cons.1 mem).resolve_left fun same => absurd low (same ▸ Nat.lt_irrefl p.depth)

/-- At the end of the body there are at least the slot and the cell of the variable. -/
theorem deeper (h : Begins var exit F p q) (around : q.scope.Around r.scope) :
    ∃ slots cells, 1 ≤ slots ∧ 1 ≤ cells ∧ r.depth = p.depth + slots ∧ r.closed = p.closed + cells := by
  have depth := h.depth
  have closed := h.closed
  have deeper : q.depth ≤ r.depth := around.depth
  have more : q.closed ≤ r.closed := around.closed
  exact ⟨r.depth - p.depth, r.closed - p.closed, by omega, by omega, by omega, by omega⟩

end Begins

/-- The code from `p`, where the body ends with slots and cells of its own, to `q`, where the loop is
left. -/
structure Repeats (control : Scope) (top slots cells : Nat) (F : Whole) (p q : State) : Prop where
  release : F.unit.Holds p.ip .popClosed cells 0
  drop : F.unit.Holds (p.ip + 1) .popStack slots 0
  current : F.unit.Holds (p.ip + 2) .getStack 3 0
  step : F.unit.Holds (p.ip + 3) .getStack 2 0
  add : F.unit.Holds (p.ip + 4) .add 0 0
  write : F.unit.Holds (p.ip + 5) .putStack 4 0
  again : ∃ address, F.Places top address ∧ F.unit.Holds (p.ip + 6) .jmp address 0 ∧
    ∀ {g : Ground} {e : List (String × Nat)}, g.Bears 0 p.scope → g.Bears 3 control → p.enclosing = e →
      Charts F.unit e g [(address, control)] p.ip p.scope q.ip q.scope []
  ip : q.ip = p.ip + 7
  enclosing : q.enclosing = p.enclosing
  upvalueCount : q.upvalueCount = p.upvalueCount
  scope : q.scope = control

theorem forTail_lays (control : Scope) (top : Nat) {v step : Nat} : Lays k (forTail control v step top) s
    fun _ t F => ∀ slots cells, 1 ≤ slots → 1 ≤ cells → s.depth = control.depth + slots →
      s.closed = control.closed + cells → control.Around s.scope → v + 3 = control.depth →
        step + 1 = control.depth → Repeats control top slots cells F s t := by
  refine (closeScope_lays control).seq fun _ s₁ _ => ((getSlot_lays v).and (getSlot_works 0 v s₁)).seq
    fun _ s₂ _ => ((getSlot_lays step).and (getSlot_works 1 step s₂)).seq fun _ s₃ _ =>
    ((emit_lays .add 0 0).and (emit_pair .add rfl rfl rfl 0 s₃)).seq fun _ s₄ _ =>
    (Lays.read (emit_lays .putStack (s₄.depth - v) 0)).seq fun _ s₅ _ =>
    (emitJump_lays rfl false top).mono fun _ t F => ?_
  rintro ⟨address, places, puts₆⟩ puts₅ ⟨puts₄, links₄⟩ ⟨puts₃, links₃⟩ ⟨puts₂, links₂⟩ closing slots
    cells slot cell deep closed around current increment
  obtain ⟨scope₁, enclosing₁, upvalueCount₁⟩ := closing.scope around
  obtain ⟨release, drop, ip₁⟩ := closing.releases slot cell deep closed
  have depth₁ : s₁.depth = control.depth := congrArg Scope.depth scope₁
  have depth₂ : s₂.depth = control.depth + 1 := by rw [puts₂.deeper, depth₁]
  have depth₃ : s₃.depth = control.depth + 2 := by rw [puts₃.deeper, depth₂]
  have depth₄ : s₄.depth = control.depth + 1 := puts₄.pairs rfl depth₃
  have ip₂ : s₂.ip = s.ip + 3 := by rw [puts₂.ip, ip₁]
  have ip₃ : s₃.ip = s.ip + 4 := by rw [puts₃.ip, ip₂]
  have ip₄ : s₄.ip = s.ip + 5 := by rw [puts₄.ip, ip₃]
  have ip₅ : s₅.ip = s.ip + 6 := by rw [puts₅.ip, ip₄]
  have write : s₄.depth - v = 4 := by omega
  rw [write] at puts₅
  have counted : Links F [] 0 1 s₁ s₄ [] := links₂.trans (links₃.trans links₄)
  have before : Trades 0 0 s₁ s₅ := counted.trades.trans (puts₅.put_trades 0)
  have jump : Links F [(address, control)] 0 0 s₅ t [] :=
    puts₆.jmp List.mem_cons_self (scope₁ ▸ (before.trans (puts₆.trades rfl rfl)).narrows') 0
  have all := before.trans jump.trades
  refine ⟨release, drop, puts₂.copies ip₁ (by rw [depth₁, current]),
    puts₃.copies ip₂ (by rw [depth₂, ← increment]), puts₄.at ip₃, puts₅.at ip₄,
    ⟨address, places, puts₆.at ip₅, fun {g e} bears ground same => ?_⟩, by rw [puts₆.ip, ip₅],
    all.enclosing.trans enclosing₁, all.upvalueCount.trans upvalueCount₁, all.scope.trans scope₁⟩
  have floor := ground.floor
  have bears₁ : g.Bears 0 s₁.scope := scope₁ ▸ ground.fewer (Nat.zero_le 3)
  have same₁ := enclosing₁.trans same
  have bears₄ : g.Bears 1 s₄.scope := counted.trades.bears bears₁
  have unnamed : F.unit.Names e s₄.scope .putStack 4 none := by simp [CodeUnit.Names]
  have avoids (h : Nat) (hidden : h ∈ g.hidden) : h + 4 ≠ s₄.depth := by
    have := g.below h hidden
    omega
  have store : Charts F.unit e g [(address, control)] s₄.ip s₄.scope s₅.ip s₅.scope [] :=
    puts₅.store bears₄ avoids unnamed trivial
  exact (closing.charts around bears).trans ((counted.any.charts bears₁ same₁).trans
    (store.trans (jump.charts (before.bears bears₁) (before.enclosing.trans same₁))))

/-- The ground for the body of a loop whose control slots are on top. -/
def Ground.loop (g : Ground) (depth : Nat) (room : g.floor + 3 ≤ depth) : Ground where
  floor := depth + 1
  hidden := (depth - 1) :: (depth - 2) :: (depth - 3) :: g.hidden
  below := by
    have below := g.below
    simp only [List.forall_mem_cons]
    exact ⟨by omega, by omega, by omega, fun h mem => by have := below h mem; omega⟩

theorem Repeats.places {control : Scope} {top slots cells l : Nat} {p q : State}
    (h : Repeats control top slots cells F p q) : Repeats control top slots cells F p (q.placed l) :=
  ⟨h.release, h.drop, h.current, h.step, h.add, h.write, h.again, h.ip, h.enclosing, h.upvalueCount, h.scope⟩

namespace Ground.Bears

variable {σ : Scope} {depth : Nat} {room : g.floor + 3 ≤ depth}

/-- What is borne in a loop is borne around it. -/
theorem outer (h : (g.loop depth room).Bears n σ) : g.Bears n σ := by
  refine ⟨?_, h.slots, h.positions, h.ascending, fun l mem hidden => h.apart l mem ?_⟩
  · have : depth + 1 + n ≤ σ.depth := h.floor
    omega
  · simp [loop, hidden]

/-- With a variable above the control slots the ground of the loop is borne. -/
theorem inner {τ : Scope} (h : g.Bears 3 σ) {var : String} (deep : σ.depth = depth)
    (locals : τ.locals = ⟨var, σ.depth, σ.closed⟩ :: σ.locals) (depth' : τ.depth = σ.depth + 1)
    (closed : τ.closed = σ.closed + 1) : (g.loop depth room).Bears 0 τ := by
  subst deep
  have below := g.below
  have floor := h.floor
  refine ⟨Nat.le_of_eq depth'.symm, ?_, ?_, ?_, ?_⟩ <;> rw [locals]
  · refine List.forall_mem_cons.2 ⟨?_, fun l mem => ?_⟩
    · show σ.depth + 0 < τ.depth
      omega
    · have := h.slots l mem
      omega
  · refine List.forall_mem_cons.2 ⟨?_, fun l mem => ?_⟩
    · show σ.closed < τ.closed
      omega
    · have := h.positions l mem
      omega
  · refine List.pairwise_cons.2 ⟨fun l mem => ⟨?_, h.positions l mem⟩, h.ascending⟩
    have := h.slots l mem
    show l.slot < σ.depth
    omega
  · refine List.forall_mem_cons.2 ⟨?_, fun l mem => ?_⟩ <;>
      simp only [loop, List.mem_cons, not_or]
    · refine ⟨by omega, by omega, by omega, fun hidden => ?_⟩
      have := below _ hidden
      omega
    · have := h.slots l mem
      exact ⟨by omega, by omega, by omega, h.apart l mem⟩

end Ground.Bears

/-- The parts of a numeric loop make it up, in every chart with the notes on its body. -/
theorem numericLoop_of_parts {var : String} {exit top f slots cells : Nat} {g : Ground}
    {p q r t : State} {notes : List Site} {C : Chart} (begins : Begins var exit F p q)
    (again : Repeats p.scope top slots cells F r t) (start : p.ip = f + 1) (leaves : F.Places exit t.ip)
    (returns : F.Places top p.ip) (done : F.unit.Holds t.ip .popStack 3 0) (room : g.floor + 3 ≤ p.depth)
    (body : Survey F.unit enclosing (g.loop p.depth room) exits q.ip q.scope r.ip r.scope T notes)
    (noted : Noted C q.ip notes) (first : (C f).scope = p.scope) (bears : g.Bears 3 p.scope)
    (last : (C r.ip).scope.Narrows r.scope) (slot : 1 ≤ slots) (cell : 1 ≤ cells)
    (depth : r.depth = p.depth + slots) (closed : r.closed = p.closed + cells) :
    F.unit.NumericLoop C f r.ip slots cells := by
  have firstDepth : (C f).scope.depth = p.depth := congrArg Scope.depth first
  have firstClosed : (C f).scope.closed = p.closed := congrArg Scope.closed first
  obtain ⟨address, places, leave, -⟩ := begins.leave
  obtain rfl : address = t.ip := places.unique leaves
  obtain ⟨address, places', jump, -⟩ := again.again
  obtain rfl : address = p.ip := places'.unique returns
  have ip := begins.ip
  have ip' := again.ip
  have size := body.size
  -- a note for every address of the body
  have note (i : Nat) (low : f + 20 ≤ i) (high : i < r.ip) : ∃ n x, notes[n]? = some x ∧ i = q.ip + n ∧ C i = x := by
    obtain ⟨n, rfl⟩ : ∃ n, i = q.ip + n := Nat.exists_eq_add_of_le (by omega)
    have inside : n < notes.length := by omega
    exact ⟨n, _, List.getElem?_eq_getElem inside, rfl, noted n _ (List.getElem?_eq_getElem inside)⟩
  have at' {i j a b : Nat} {op : Opcode} (h : F.unit.Holds (p.ip + i) op a b) (same : f + j = p.ip + i) :
      F.unit.Holds (f + j) op a b := same ▸ h
  refine { guard := start ▸ begins.guard, ends := at' begins.ends (by omega)
           leave := ip' ▸ at' leave (by omega), read := at' begins.read (by omega)
           bind := at' begins.bind (by omega), body := by omega
           release := again.release, drop := again.drop, current := again.current, step := again.step
           add := again.add, write := again.write, again := start ▸ jump, done := ip' ▸ done
           control := by omega, slot, cell, depth := ?_, closed := ?_
           temporaries := fun l mem => by rw [first] at mem ⊢; exact bears.slots l mem
           deep := ?_, hides := ?_ }
  · rw [last.depth, firstDepth]
    exact depth
  · rw [last.closed, firstClosed]
    exact closed
  · intro i low high
    obtain ⟨n, x, found, rfl, here⟩ := note i low high
    rw [here, firstDepth]
    exact body.floor n x found
  · intro i low high j one three
    obtain ⟨n, x, found, rfl, here⟩ := note i low high
    rw [here, firstDepth]
    refine body.hides n x found _ ?_
    obtain rfl | rfl | rfl : j = 1 ∨ j = 2 ∨ j = 3 := by omega
    all_goals simp [Ground.loop]

/-- A numeric loop from its parts. -/
theorem forLoop_links {var : String} {exit top : Nat} {around : Scope} {p q r s₂ t' : State}
    {V : List String → List String} {B : List String → Namings}
    (puts : Puts F s s₂ .forPrep 0 0) (scope : p.scope = s₂.scope) (ip : p.ip = s₂.ip)
    (enclosing : p.enclosing = s₂.enclosing) (upvalueCount : p.upvalueCount = s₂.upvalueCount)
    (returns : F.Places top p.ip) (leaves : F.Places exit t.ip)
    (begins : 3 ≤ p.depth → Begins var exit F p q)
    (spans : ∀ exits, Bound F (some ⟨exit, p.scope⟩) q exits → Spans F exits q r (V q.sees) (B q.sees))
    (again : 3 ≤ p.depth → ∀ slots cells, 1 ≤ slots → 1 ≤ cells → r.depth = p.depth + slots →
      r.closed = p.closed + cells → p.scope.Around r.scope → Repeats p.scope top slots cells F r t)
    (closing : Closing around F t t') (locals : around.locals = s.locals)
    (depth : around.depth + 3 = s.depth) (closed : around.closed = s.closed) :
    Links F [] 3 0 s t' ((Naming.declare [var], s.sees) :: B (var :: s.sees)) := by
  have prepared : Trades 3 3 s s₂ := puts.trades rfl rfl
  have scopeP : p.scope = s.scope := scope.trans prepared.scope
  have depthP : p.depth = s.depth := congrArg Scope.depth scopeP
  have closedP : p.closed = s.closed := congrArg Scope.closed scopeP
  have localsP : p.locals = s.locals := congrArg Scope.locals scopeP
  have ipP : p.ip = s.ip + 1 := ip.trans puts.ip
  have enclosingP := enclosing.trans prepared.enclosing
  have three : 3 ≤ p.depth := by omega
  have begins := begins three
  obtain ⟨address, places, -, headCharts⟩ := begins.leave
  obtain rfl : address = t.ip := places.unique leaves
  have bodyAround := begins.around
  -- the exits: the beginning of the guard and the end of the loop
  let exits := [(p.ip, p.scope), (t.ip, p.scope)]
  have body : Spans F exits q r (V q.sees) (B q.sees) :=
    spans exits (.own leaves bodyAround (List.mem_cons_of_mem _ List.mem_cons_self))
  obtain ⟨slots, cells, slot, cell, depthR, closedR⟩ := begins.deeper body.around
  have again := again three slots cells slot cell depthR closedR (bodyAround.trans body.around)
  obtain ⟨address, places', -, tailCharts⟩ := again.again
  obtain rfl : address = p.ip := places'.unique returns
  have depthT : t.depth = p.depth := congrArg Scope.depth again.scope
  have closedT : t.closed = p.closed := congrArg Scope.closed again.scope
  have localsT : t.locals = p.locals := congrArg Scope.locals again.scope
  have outside : around.Around t.scope := by
    rw [again.scope, scopeP]
    exact .of_locals locals (by simp only [State.scope]; omega) (Nat.le_of_eq closed)
  obtain ⟨scopeE, enclosingE, upvalueCountE⟩ := closing.scope outside
  have enclosingT := again.enclosing.trans (body.enclosing.trans begins.enclosing)
  refine ⟨⟨(congrArg Scope.locals scopeE).trans locals, enclosingE.trans (enclosingT.trans enclosingP),
    upvalueCountE.trans (again.upvalueCount.trans (body.upvalueCount.trans
      (begins.upvalueCount.trans (upvalueCount.trans prepared.upvalueCount)))), ?_,
    (congrArg Scope.closed scopeE).trans closed⟩, fun {g e} bears same => ?_⟩
  · have : t'.depth = around.depth := congrArg Scope.depth scopeE
    omega
  have bearsP : g.Bears 3 p.scope := scopeP ▸ bears
  have room : g.floor + 3 ≤ p.depth := bearsP.floor
  have bearsQ : (g.loop p.depth room).Bears 0 q.scope := bearsP.inner rfl begins.locals begins.depth begins.closed
  have bearsR := body.bears bearsQ
  have bearsT : g.Bears 3 t.scope := again.scope ▸ bearsP
  have sameP := enclosingP.trans same
  have sameQ := begins.enclosing.trans sameP
  have sameR := body.enclosing.trans sameQ
  obtain ⟨notes₁, head⟩ : Charts F.unit e g exits p.ip p.scope q.ip q.scope [(.declare [var], p.sees)] :=
    (headCharts (bearsP.fewer (Nat.zero_le 3)) sameP).weaken (by simp [exits])
  obtain ⟨notes₂, middle⟩ := body.charts bearsQ sameQ
  obtain ⟨notes₃, tail⟩ : Charts F.unit e g exits r.ip r.scope t.ip t.scope [] :=
    (tailCharts bearsR.outer bearsP sameR).weaken (by simp [exits])
  obtain ⟨notes₄, close⟩ : Charts F.unit e g [] t.ip t.scope t'.ip t'.scope [] := closing.charts outside bearsT
  have middle' : Survey F.unit e g exits q.ip q.scope r.ip r.scope (B q.sees) notes₂ :=
    middle.ground (by simp only [Ground.loop]; omega) fun x mem => by simp [Ground.loop, mem]
  have inner := head.append (middle'.append tail)
  have loop : Survey F.unit e g [] p.ip p.scope t.ip t.scope ([(Naming.declare [var], p.sees)] ++ (B q.sees ++ []))
      (notes₁ ++ (notes₂ ++ notes₃)) := by
    refine inner.discharge fun x ρ mem => Or.inr ?_
    rcases List.mem_cons.1 mem with here | mem
    · cases here
      exact Or.inl ⟨rfl, .refl _⟩
    · cases List.mem_singleton.1 mem
      exact Or.inr ⟨rfl, again.scope ▸ .refl _⟩
  have rest := loop.append close
  rw [ipP] at rest
  have admits : Admits F.unit e g s.scope .forPrep 0 0 none :=
    { ascending := bears.ascending, floor := Or.inl (by have := bears.floor; omega)
      room := fun _ => Or.inr bears.floor, avoids := by rintro ⟨⟩, names := by simp [CodeUnit.Names]
      live := by simp, nested := by rintro ⟨⟩ }
  have seesP : p.sees = s.sees := by
    simp only [State.sees, Scope.visible, scopeP, enclosingP]
  have seesQ : q.sees = var :: s.sees := by
    rw [← seesP]
    simp only [State.sees, Scope.visible, State.scope, begins.locals, begins.enclosing]
    rfl
  refine Charts.as ⟨_, .cons puts.holds admits rest (fun _ => ?_) trivial (by rintro ⟨⟩) fun _ C here noted last => ?_⟩ ?_
  · exact bears.passes (Nat.le_refl 3) (by rintro ⟨⟩) localsP (by simp [State.scope, Instruction.stackEffect, depthP])
      (by simp [State.scope, Instruction.closedEffect, closedP])
  · obtain ⟨notedLoop, notedClose⟩ := noted.split (ipP ▸ loop.size)
    obtain ⟨-, notedRest⟩ := notedLoop.split (ipP ▸ head.size)
    obtain ⟨notedBody, notedTail⟩ := notedRest.split middle.size
    have last := tail.enters notedTail (close.enters notedClose last)
    exact ⟨r.ip, slots, cells, numericLoop_of_parts begins again ipP leaves returns
      (closing.drops (by omega) (by omega) (by omega)) room middle notedBody
      (by rw [here]; exact scopeP.symm) bearsP last slot cell depthR closedR⟩
  · simp [said, seesP, seesQ]

/-- A numeric loop once its control slots are on top. -/
theorem forLoop_lays (var : String) {body : Option LoopExit → Compiler Unit} {V : List String → List String}
    {B : List String → Namings} (bodies : ∀ exit, Settles exit (body exit) V B) (around : Scope) :
    Lays s.builder.labels.size (do
      emit .forPrep 0 0
      let control ← scope
      let top ← newLabel
      let exit ← newLabel
      placeLabel top
      forHead var (control.depth - 3) (control.depth - 2) (control.depth - 1) exit
      body (some ⟨exit, control⟩)
      forTail control (control.depth - 3) (control.depth - 1) top
      placeLabel exit
      closeScope around) s fun _ t F =>
        around.locals = s.locals → around.depth + 3 = s.depth → around.closed = s.closed →
          Links F [] 3 0 s t ((Naming.declare [var], s.sees) :: B (var :: s.sees)) := by
  refine (emit_lays .forPrep 0 0).seq fun _ s₂ g₂ => Lays.read (Lays.label (Lays.label ?_))
  have size : s₂.labelled.builder.labels.size = s₂.builder.labels.size + 1 := size_labelled s₂
  have low := g₂.labels
  refine Lays.place low (awaits_labelled s₂).labelled ?_
  have exit := (awaits_labelled s₂.labelled).placed (j := s₂.builder.labels.size) (by omega)
  have same : (s₂.labelled.labelled.placed s₂.builder.labels.size).scope = s₂.scope ∧
      (s₂.labelled.labelled.placed s₂.builder.labels.size).ip = s₂.ip ∧
      (s₂.labelled.labelled.placed s₂.builder.labels.size).enclosing = s₂.enclosing ∧
      (s₂.labelled.labelled.placed s₂.builder.labels.size).upvalueCount = s₂.upvalueCount := by simp
  generalize s₂.labelled.labelled.placed s₂.builder.labels.size = p at exit same ⊢
  obtain ⟨scope, ip, enclosing, upvalueCount⟩ := same
  have control : Scope.mk s₂.locals s₂.depth s₂.closed = p.scope := scope.symm
  rw [control]
  refine (forHead_lays var _).seq fun _ s₃ g₃ => (bodies _ _).seq fun _ s₄ g₄ => (forTail_lays _ _).seq
    fun _ s₅ g₅ => Lays.place (by omega) (((exit.grown g₃).grown g₄).grown g₅) ?_
  refine (closeScope_lays _).mono fun _ t F => ?_
  rintro closing leaves again spans begins returns puts
  have depth : p.scope.depth = p.depth := rfl
  exact forLoop_links (t := s₅.placed _) puts scope ip enclosing upvalueCount (ip ▸ returns) leaves
    (fun three => begins (by omega) (by omega) (by omega)) spans
    (fun three slots cells slot cell deep closed around =>
      (again slots cells slot cell deep closed around (by omega) (by omega)).places)
    closing

theorem numericForCode_works (var : String) {start limit step : Compiler Unit}
    {body : Option LoopExit → Compiler Unit} {V : List String → List String} {A L I B : List String → Namings}
    (hstart : Works 0 start 1 A) (hlimit : Works 1 limit 2 L) (hstep : Works 2 step 3 I)
    (bodies : ∀ exit, Settles exit (body exit) V B) :
    Works 0 (numericForCode var start limit step body) 0 fun names =>
      A names ++ L names ++ I names ++ (Naming.declare [var], names) :: B (var :: names) := by
  intro s
  rw [numericForCode_eq]
  refine Lays.read ((hstart _).seq fun _ s₁ _ => (hlimit _).seq fun _ s₂ _ => (hstep _).seq fun _ s₃ _ =>
    (forLoop_lays var bodies _).mono fun _ t F loop links₃ links₂ links₁ => ?_)
  have first := links₁.trans links₂
  have bounds := first.trans links₃
  have depth := bounds.trades.depth
  have whole := bounds.trans (loop bounds.trades.locals.symm depth.symm bounds.trades.closed.symm)
  exact whole.as (by rw [bounds.trades.sees, first.trades.sees, links₁.trades.sees])

end ScriptEngine.Compiler
