import ScriptEngine.Proofs.Compiler.Chart

/-!
# The compiler's code can be charted

`Works n c m T` says that `c` takes `n` temporaries away and leaves `m`, with code that does `T` about names and
can be charted in every region that bears the temporaries; `Settles exit c` says the same of statements, which may declare
locals and leave for the exit of the loop around them. The primitives come first, then expressions and
statements by induction over the syntax.
-/

set_option linter.dupNamespace false

namespace ScriptEngine.Compiler

variable {α β : Type} {s t : State} {F : Whole} {g : Ground} {n m k : Nat}

/-- The names that are visible, the innermost first. -/
def State.sees (s : State) : List String := s.scope.visible s.enclosing

@[simp] theorem scope_labelled (s : State) : s.labelled.scope = s.scope := rfl

@[simp] theorem scope_placed (s : State) (l : Nat) : (s.placed l).scope = s.scope := rfl

@[simp] theorem ip_labelled (s : State) : s.labelled.ip = s.ip := rfl

@[simp] theorem ip_placed (s : State) (l : Nat) : (s.placed l).ip = s.ip := rfl

@[simp] theorem enclosing_labelled (s : State) : s.labelled.enclosing = s.enclosing := rfl

@[simp] theorem enclosing_placed (s : State) (l : Nat) : (s.placed l).enclosing = s.enclosing := rfl

@[simp] theorem upvalueCount_labelled (s : State) : s.labelled.upvalueCount = s.upvalueCount := rfl

@[simp] theorem upvalueCount_placed (s : State) (l : Nat) : (s.placed l).upvalueCount = s.upvalueCount := rfl

@[simp] theorem sees_labelled (s : State) : s.labelled.sees = s.sees := rfl

@[simp] theorem sees_placed (s : State) (l : Nat) : (s.placed l).sees = s.sees := rfl

/-- Only the temporaries have changed: there were `n`, and now there are `m`. -/
structure Trades (n m : Nat) (s t : State) : Prop where
  locals : t.locals = s.locals
  enclosing : t.enclosing = s.enclosing
  upvalueCount : t.upvalueCount = s.upvalueCount
  depth : t.depth + n = s.depth + m
  closed : t.closed = s.closed

namespace Trades

theorem refl (n : Nat) (s : State) : Trades n n s s := ⟨rfl, rfl, rfl, rfl, rfl⟩

theorem trans {r : State} (first : Trades n m s r) (second : Trades m k r t) : Trades n k s t where
  locals := second.locals.trans first.locals
  enclosing := second.enclosing.trans first.enclosing
  upvalueCount := second.upvalueCount.trans first.upvalueCount
  depth := by
    have := first.depth
    have := second.depth
    omega
  closed := second.closed.trans first.closed

theorem more (h : Trades n m s t) (k : Nat) : Trades (n + k) (m + k) s t :=
  { h with depth := by have := h.depth; omega }

theorem bears (h : Trades n m s t) (bears : g.Bears n s.scope) : g.Bears m t.scope :=
  bears.shift h.locals h.closed h.depth

theorem sees (h : Trades n m s t) : t.sees = s.sees := by
  simp only [State.sees, Scope.visible, State.scope, h.locals, h.enclosing]

/-- The same temporaries over the same locals. -/
theorem narrows (h : Trades n n s t) : t.scope.Narrows s.scope := by
  have depth := h.depth
  obtain ⟨locals, -, -, -, closed⟩ := h
  refine ⟨by simp only [State.scope]; omega, closed, fun l ⟨mem, slot, position⟩ => ?_,
    fun l mem _ => (locals.symm ▸ mem : l ∈ t.locals)⟩
  simp only [State.scope] at mem slot position
  rw [locals] at mem
  exact ⟨mem, by simp only [State.scope]; omega, by simp only [State.scope]; omega⟩

theorem narrows' (h : Trades n n s t) : s.scope.Narrows t.scope :=
  narrows ⟨h.locals.symm, h.enclosing.symm, h.upvalueCount.symm, h.depth.symm, h.closed.symm⟩

end Trades

/-- The code from `s` to `t` trades `n` temporaries for `m`, does `T` about names and can be charted, if the
addresses in `exits` are entered as given there. -/
structure Links (F : Whole) (exits : List (Nat × Scope)) (n m : Nat) (s t : State) (T : Namings) : Prop where
  trades : Trades n m s t
  charts : ∀ {g : Ground} {e : List (String × Nat)}, g.Bears n s.scope → s.enclosing = e →
    Charts F.unit e g exits s.ip s.scope t.ip t.scope T

namespace Links

variable {exits exits' : List (Nat × Scope)} {r : State} {l : Nat} {T T' : Namings}

theorem refl (n : Nat) (s : State) : Links F exits n n s s [] := ⟨.refl n s, fun _ _ => .refl⟩

theorem trans (first : Links F exits n m s r T) (second : Links F exits m k r t T') :
    Links F exits n k s t (T ++ T') :=
  ⟨first.trades.trans second.trades, fun bears same => (first.charts bears same).trans
    (second.charts (first.trades.bears bears) (first.trades.enclosing.trans same))⟩

theorem as (h : Links F exits n m s t T) (same : T = T') : Links F exits n m s t T' := same ▸ h

/-- Code that does nothing about names comes after other code. -/
theorem quietly (first : Links F exits n m s r T) (second : Links F exits m k r t []) : Links F exits n k s t T :=
  (first.trans second).as (List.append_nil T)

theorem more (h : Links F exits n m s t T) (k : Nat) : Links F exits (n + k) (m + k) s t T :=
  ⟨h.trades.more k, fun bears => h.charts (bears.fewer (Nat.le_add_right n k))⟩

/-- Code that needs no exits. -/
theorem any (h : Links F [] n m s t T) : Links F exits n m s t T :=
  ⟨h.trades, fun bears same => (h.charts bears same).none⟩

theorem weaken (h : Links F exits n m s t T) (kept : ∀ x ∈ exits, x ∈ exits') : Links F exits' n m s t T :=
  ⟨h.trades, fun bears same => (h.charts bears same).weaken kept⟩

/-- An exit at the end. -/
theorem closing {ρ : Scope} (h : Links F ((t.ip, ρ) :: exits) n m s t T) (narrows : t.scope.Narrows ρ) :
    Links F exits n m s t T := by
  refine ⟨h.trades, fun bears same => (h.charts bears same).discharge fun x ρ' mem => ?_⟩
  rcases List.mem_cons.1 mem with here | mem
  · cases here
    exact Or.inr (Or.inr ⟨rfl, narrows⟩)
  · exact Or.inl mem

/-- An exit at the beginning. -/
theorem opening {ρ : Scope} (h : Links F ((s.ip, ρ) :: exits) n m s t T) (narrows : s.scope.Narrows ρ) :
    Links F exits n m s t T := by
  refine ⟨h.trades, fun bears same => (h.charts bears same).discharge fun x ρ' mem => ?_⟩
  rcases List.mem_cons.1 mem with here | mem
  · cases here
    exact Or.inr (Or.inl ⟨rfl, narrows⟩)
  · exact Or.inl mem

theorem labelled (h : Links F exits n m s.labelled t T) : Links F exits n m s t T :=
  ⟨⟨h.trades.locals, h.trades.enclosing, h.trades.upvalueCount, h.trades.depth, h.trades.closed⟩, h.charts⟩

theorem placed (h : Links F exits n m (s.placed l) t T) : Links F exits n m s t T :=
  ⟨⟨h.trades.locals, h.trades.enclosing, h.trades.upvalueCount, h.trades.depth, h.trades.closed⟩, h.charts⟩

theorem places (h : Links F exits n m s t T) : Links F exits n m s (t.placed l) T :=
  ⟨⟨h.trades.locals, h.trades.enclosing, h.trades.upvalueCount, h.trades.depth, h.trades.closed⟩, h.charts⟩

end Links

/-- Code that has nothing to do with names. -/
abbrev quiet : List String → Namings := fun _ => []

/-- `c` takes `n` temporaries away and leaves `m`, with code that does `T` about the names that are visible and
can be charted. -/
def Works (n : Nat) (c : Compiler α) (m : Nat) (T : List String → Namings) : Prop :=
  ∀ s, Lays s.builder.labels.size c s fun _ t F => Links F [] n m s t (T s.sees)

namespace Works

variable {T T' : List String → Namings}

theorem nothing (n : Nat) (a : α) : Works n (pure a : Compiler α) n quiet := fun s => Lays.pure fun _ => .refl n s

theorem seq {c : Compiler α} {d : Compiler β} (first : Works n c m T) (second : Works m d k T') :
    Works n (c >>= fun _ => d) k fun names => T names ++ T' names := fun s =>
  (first s).seq fun _ r _ => (second r).mono fun _ _ _ last before =>
    before.trans (last.as (congrArg T' before.trades.sees))

theorem as {c : Compiler α} (h : Works n c m T) (same : ∀ names, T names = T' names) : Works n c m T' := fun s =>
  (h s).mono fun _ _ _ done => done.as (same s.sees)

/-- Code that does nothing about names comes after other code. -/
theorem quietly {c : Compiler α} {d : Compiler β} (first : Works n c m T) (second : Works m d k quiet) :
    Works n (c >>= fun _ => d) k T := (first.seq second).as fun _ => List.append_nil _

/-- The same with other temporaries below. -/
theorem more {c : Compiler α} (h : Works n c m T) (k : Nat) : Works (n + k) c (m + k) T := fun s =>
  (h s).mono fun _ _ _ done => done.more k

theorem line {c : Compiler α} {line : Nat} (h : Works n c m T) : Works n (do setLine line; c) m T := fun s =>
  Lays.line ((h { s with line }).mono fun _ _ _ ⟨⟨locals, enclosing, upvalueCount, depth, closed⟩, charts⟩ =>
    ⟨⟨locals, enclosing, upvalueCount, depth, closed⟩, charts⟩)

theorem ite {p : Prop} [Decidable p] {c d : Compiler α} (yes : p → Works n c m T) (no : ¬p → Works n d m T) :
    Works n (if p then c else d) m T := by
  split
  · exact yes ‹_›
  · exact no ‹_›

/-- What an action does may depend on the state. -/
theorem get {f : State → Compiler α} (h : ∀ s, Works n (f s) m T) : Works n (MonadState.get >>= f) m T :=
  fun s => Lays.read (h s s)

/-- An action that fails does not get to its code. -/
theorem throw (e : CompileError) : Works n (MonadExcept.throw e : Compiler α) m T := fun _ => Lays.throw

end Works

theorem Puts.trades {op : Opcode} {a b : Nat} (puts : Puts F s t op a b)
    (effect : Instruction.stackEffect op a b = (m : Int) - n) (keeps : Instruction.closedEffect op a = 0) :
    Trades n m s t := by
  have depth := puts.depth
  have closed := puts.closed
  exact ⟨puts.locals, puts.enclosing, puts.upvalueCount, by omega, by omega⟩

theorem emit_works {op : Opcode} {a b : Nat} (mild : op.isMild = true) (touched : op.touched a b ≤ n)
    (effect : Instruction.stackEffect op a b = (m : Int) - n) : Works n (emit op a b) m quiet := fun s =>
  (emit_lays op a b).mono fun _ t F puts => by
    have keeps : Instruction.closedEffect op a = 0 := by cases op <;> cases mild <;> rfl
    exact ⟨puts.trades effect keeps, fun bears _ => puts.mild mild bears touched⟩

/-- The two topmost temporaries give way to one. -/
theorem emit_pair (op : Opcode) (mild : op.isMild = true) (two : op.touched 0 0 = 2)
    (effect : Instruction.stackEffect op 0 0 = -1) (n : Nat) : Works (n + 2) (emit op 0 0) (n + 1) quiet :=
  emit_works mild (by omega) (by rw [effect]; omega)

/-- The topmost temporary gives way to another. -/
theorem emit_single (op : Opcode) (mild : op.isMild = true) (one : op.touched 0 0 = 1)
    (effect : Instruction.stackEffect op 0 0 = 0) (n : Nat) : Works (n + 1) (emit op 0 0) (n + 1) quiet :=
  emit_works mild (by omega) (by rw [effect]; omega)

theorem emit_copy (n a : Nat) : Works n (emit .getStack a 0) (n + 1) quiet :=
  emit_works rfl (Nat.zero_le n) (by simp only [Instruction.stackEffect]; omega)

theorem putTable_works (n : Nat) : Works (n + 3) (emit .putTable 0 0) n quiet :=
  emit_works rfl (by simp [Opcode.touched, Opcode.operands]) (by simp only [Instruction.stackEffect]; omega)

/-- Slots on top are released. -/
theorem pop_works (n m : Nat) : Works (n + m) (pop m) n quiet := by
  unfold pop
  refine Works.ite (fun none' => ?_) fun some' s => (emit_lays .popStack m 0).mono fun _ t F puts => ?_
  · rw [none']
    exact .nothing n _
  · have trades : Trades (n + m) n s t :=
      puts.trades (by simp only [Instruction.stackEffect]; omega) rfl
    refine ⟨trades, fun {g e} bears _ => ?_⟩
    have floor := bears.floor
    have admits : Admits F.unit e g s.scope .popStack m 0 none :=
      { ascending := bears.ascending, floor := Or.inl (by omega), room := fun other => absurd rfl other
        avoids := nofun, names := by simp [CodeUnit.Names], live := by simp, nested := nofun }
    exact puts.charts admits (fun _ => bears.passes (by simp [Opcode.touched, Opcode.operands]) nofun puts.locals
      puts.depth puts.closed) trivial nofun nofun

theorem addConstant_works (n : Nat) (v : Value) {f : Nat → Compiler α} {T : List String → Namings}
    (h : ∀ i, Works n (f i) m T) : Works n (addConstant v >>= f) m T := fun s =>
  (addConstant_lays v).seq fun i r _ => (h i r).mono fun _ t F done stocks => by
    obtain ⟨builder, rfl, code⟩ := stocks.same
    obtain ⟨⟨locals, enclosing, upvalueCount, depth, closed⟩, charts⟩ := done
    refine ⟨⟨locals, enclosing, upvalueCount, depth, closed⟩, fun bears same => ?_⟩
    have charts := charts bears same
    rwa [State.ip, code] at charts

theorem loadConstant_works (n : Nat) (v : Value) : Works n (loadConstant v) (n + 1) quiet :=
  addConstant_works n v fun i =>
    emit_works rfl (Nat.zero_le n) (by simp only [Instruction.stackEffect]; omega)

theorem loadNil_works (n m : Nat) : Works n (loadNil m) (n + m) quiet := by
  induction m generalizing n with
  | zero => exact .nothing n _
  | succ m ih =>
    have rest := ih (n + 1)
    rw [Nat.add_assoc, Nat.add_comm 1 m] at rest
    exact (loadConstant_works n .nil).seq rest

theorem getSlot_works (n slot : Nat) : Works n (getSlot slot) (n + 1) quiet := .get fun _ => emit_copy n _

/-- A value goes to a slot that no region hides. -/
theorem Puts.store {a : Nat} (puts : Puts F s t .putStack a 0) (bears : g.Bears (n + 1) s.scope)
    (avoids : ∀ h ∈ g.hidden, h + a ≠ s.depth) {enclosing : List (String × Nat)} {exits : List (Nat × Scope)}
    {naming : Option Naming} (names : F.unit.Names enclosing s.scope .putStack a naming)
    (declared : s.scope.Declared t.scope naming) :
    Charts F.unit enclosing g exits s.ip s.scope t.ip t.scope (said s.scope enclosing naming) := by
  have floor := bears.floor
  have one : Opcode.touched .putStack a 0 = 1 := rfl
  refine puts.charts ?_ (fun _ => bears.passes (by omega) nofun puts.locals puts.depth puts.closed) declared
    nofun nofun
  exact { ascending := bears.ascending, floor := Or.inl (by omega), room := fun _ => Or.inr (by omega)
          avoids := fun _ => avoids, names, live := fun _ l mem => bears.live mem, nested := nofun }

theorem Puts.put_trades {a : Nat} (puts : Puts F s t .putStack a 0) (n : Nat) : Trades (n + 1) n s t :=
  puts.trades (by simp only [Instruction.stackEffect]; omega) rfl

/-- A value goes to one of the temporaries. -/
theorem putTemporary_works {a : Nat} (few : a ≤ n + 1) : Works (n + 1) (emit .putStack a 0) n quiet := fun s =>
  (emit_lays .putStack a 0).mono fun _ t F puts => by
    have unnamed (e : List (String × Nat)) : F.unit.Names e s.scope .putStack a none := by simp [CodeUnit.Names]
    refine ⟨puts.put_trades n, fun {g e} bears _ => puts.store bears (fun h mem => ?_) (unnamed e) trivial⟩
    have floor : g.floor + (n + 1) ≤ s.depth := bears.floor
    have := g.below h mem
    omega

/-! ## Variables -/

/-- An instruction that accesses a variable, but for the one that pops into a slot. -/
theorem Puts.accesses {op : Opcode} {a : Nat} {name : String} (puts : Puts F s t op a 0)
    (which : op = .getStack ∨ op = .getUpval ∨ op = .putUpval ∨ op = .getGlobal ∨ op = .putGlobal)
    (names : ∀ {g : Ground}, g.Bears n s.scope → F.unit.Names s.enclosing s.scope op a (some (.access name)))
    (touched : op.touched a 0 ≤ n) (effect : Instruction.stackEffect op a 0 = (m : Int) - n) :
    Links F [] n m s t [(.access name, s.sees)] := by
  have none' : op ≠ .putStack ∧ op ≠ .closure ∧ op.isJump = false ∧ op ≠ .forPrep ∧ op ≠ .closeVars := by
    rcases which with rfl | rfl | rfl | rfl | rfl <;> simp [Opcode.isJump]
  have keeps : Instruction.closedEffect op a = 0 := by rcases which with rfl | rfl | rfl | rfl | rfl <;> rfl
  refine ⟨puts.trades effect keeps, fun {g e} bears same => ?_⟩
  subst same
  have floor := bears.floor
  have admits : Admits F.unit s.enclosing g s.scope op a 0 (some (.access name)) :=
    { ascending := bears.ascending, floor := Or.inl (by omega), room := fun _ => Or.inr (by omega)
      avoids := fun put => absurd put none'.1, names := names bears, live := fun _ l mem => bears.live mem
      nested := fun closes => absurd closes none'.2.1 }
  exact puts.charts admits (fun _ => bears.passes touched none'.2.2.2.2 puts.locals puts.depth puts.closed) trivial
    (fun jump => absurd jump (by simp [none'.2.2.1])) none'.2.2.2.1

theorem mem_of_resolve {name : String} {slot : Nat} (resolved : s.resolve name = .slot slot) :
    ∃ l ∈ s.locals, l.slot = slot := by
  unfold State.resolve at resolved
  cases found : s.locals.find? (·.name == name) with
  | some l =>
    rw [found] at resolved
    cases resolved
    exact ⟨l, List.mem_of_find?_eq_some found, rfl⟩
  | none =>
    rw [found] at resolved
    dsimp only at resolved
    split at resolved <;> cases resolved

section

variable {u : CodeUnit} {name : String} {op : Opcode} {a : Nat}

theorem names_slot {slot : Nat} (resolved : s.resolve name = .slot slot) (which : op = .getStack ∨ op = .putStack)
    (there : slot + a = s.depth) : u.Names s.enclosing s.scope op a (some (.access name)) := by
  have resolved : resolveIn s.scope.locals s.enclosing name = .slot slot := resolved
  simp only [CodeUnit.Names, resolved]
  exact ⟨which, there⟩

theorem names_upvalue {pos : Nat} (resolved : s.resolve name = .upvalue pos)
    (which : op = .getUpval ∨ op = .putUpval) : u.Names s.enclosing s.scope op pos (some (.access name)) := by
  have resolved : resolveIn s.scope.locals s.enclosing name = .upvalue pos := resolved
  simp only [CodeUnit.Names, resolved]
  exact ⟨which, trivial⟩

theorem names_global (resolved : s.resolve name = .global) (which : op = .getGlobal ∨ op = .putGlobal)
    (found : u.constants[a]? = some (.string name)) : u.Names s.enclosing s.scope op a (some (.access name)) := by
  have resolved : resolveIn s.scope.locals s.enclosing name = .global := resolved
  simp only [CodeUnit.Names, resolved]
  exact ⟨which, found⟩

end

/-- A slot's local is below the temporaries. -/
theorem Ground.Bears.copies {name : String} {slot : Nat} (bears : g.Bears n s.scope)
    (resolved : s.resolve name = .slot slot) : slot + (s.depth - slot) = s.depth := by
  obtain ⟨l, mem, rfl⟩ := mem_of_resolve resolved
  have : l.slot + n < s.depth := bears.slots l mem
  omega

theorem global_lays {op : Opcode} (which : op = .getGlobal ∨ op = .putGlobal) {name : String}
    (resolved : s.resolve name = .global) (touched : ∀ i, op.touched i 0 ≤ n)
    (effect : ∀ i, Instruction.stackEffect op i 0 = (m : Int) - n) :
    Lays k (addConstant (.string name) >>= fun i => emit op i 0) s
      fun _ t F => Links F [] n m s t [(.access name, s.sees)] :=
  (addConstant_lays _).seq fun i r _ => (emit_lays op i 0).mono fun _ t F puts stocks => by
    obtain ⟨w, found, equal⟩ := stocks.found
    obtain ⟨builder, rfl, code⟩ := stocks.same
    have found : F.unit.constants[i]? = some (.string name) := by
      rcases equal with equal | rfl
      · cases w with
        | string s => rw [found, show s = name from eq_of_beq equal]
        | _ => cases equal
      · exact found
    have accesses : Links F [] n m { s with builder } t [(.access name, s.sees)] :=
      puts.accesses (by rcases which with rfl | rfl <;> simp) (fun _ => names_global resolved which found)
        (touched i) (effect i)
    obtain ⟨⟨locals, enclosing, upvalueCount, depth, closed⟩, charts⟩ := accesses
    refine ⟨⟨locals, enclosing, upvalueCount, depth, closed⟩, fun bears same => ?_⟩
    have charts := charts bears same
    rwa [State.ip, code] at charts

theorem readVar_works (n : Nat) (name : String) : Works n (readVar name) (n + 1) fun names => [(.access name, names)] :=
  fun s => by
    refine Lays.read ?_
    cases resolved : s.resolve name with
    | slot slot =>
      refine Lays.read ((emit_lays .getStack (s.depth - slot) 0).mono fun _ t F puts => ?_)
      exact puts.accesses (Or.inl rfl) (fun bears => names_slot resolved (Or.inl rfl) (bears.copies resolved))
        (Nat.zero_le n) (by simp only [Instruction.stackEffect]; omega)
    | upvalue pos =>
      refine (emit_lays .getUpval pos 0).mono fun _ t F puts => ?_
      exact puts.accesses (by simp) (fun _ => names_upvalue resolved (Or.inl rfl)) (Nat.zero_le n)
        (by simp only [Instruction.stackEffect]; omega)
    | global =>
      exact global_lays (Or.inl rfl) resolved (fun _ => Nat.zero_le n) fun _ => by
        simp only [Instruction.stackEffect]
        omega

theorem writeVar_works (n : Nat) (name : String) :
    Works (n + 1) (writeVar name) n fun names => [(.access name, names)] := fun s => by
  refine Lays.read ?_
  cases resolved : s.resolve name with
  | slot slot =>
    refine Lays.read ((emit_lays .putStack (s.depth - slot) 0).mono fun _ t F puts =>
      ⟨puts.put_trades n, fun {g e} bears same => ?_⟩)
    subst same
    have there := bears.copies resolved
    refine puts.store bears (fun h hidden same => ?_) (names_slot resolved (Or.inr rfl) there) trivial
    obtain ⟨l, mem, rfl⟩ := mem_of_resolve resolved
    obtain rfl : h = l.slot := by omega
    exact bears.apart l mem hidden
  | upvalue pos =>
    refine (emit_lays .putUpval pos 0).mono fun _ t F puts => ?_
    exact puts.accesses (by simp) (fun _ => names_upvalue resolved (Or.inr rfl)) (Nat.le_add_left 1 n)
      (by simp only [Instruction.stackEffect]; omega)
  | global =>
    exact global_lays (Or.inr rfl) resolved (fun _ => Nat.le_add_left 1 n) fun _ => by
      simp only [Instruction.stackEffect]
      omega

/-! ## Wanted slots -/

theorem adjustMulti_works (n : Nat) (arity : Arity) : Works (n + 1) (adjustMulti arity) (n + arity.slots) quiet := by
  cases arity with
  | multi => exact .nothing _ _
  | fixed k =>
    exact emit_works rfl (Nat.le_add_left 1 n) (by simp only [Instruction.stackEffect, Arity.slots]; omega)

theorem adjustSingle_works (n : Nat) (arity : Arity) :
    Works (n + 1) (adjustSingle arity) (n + arity.slots) quiet := by
  match arity with
  | .multi => exact .nothing _ _
  | .fixed 0 => exact pop_works n 1
  | .fixed (k + 1) =>
    have nils := loadNil_works (n + 1) k
    rw [Nat.add_assoc, Nat.add_comm 1 k] at nils
    exact nils

theorem finishCall_works (n args : Nat) (arity : Arity) :
    Works (n + (args + 1)) (finishCall args arity) (n + arity.slots) quiet := by
  have multi : Works (n + (args + 1)) (emit .call args 0) (n + 1) quiet :=
    emit_works rfl (by simp [Opcode.touched, Opcode.operands])
      (by simp only [Instruction.stackEffect, if_pos]; omega)
  cases arity with
  | multi => exact multi
  | fixed k =>
    refine Works.ite (fun some' => ?_) fun other => multi.seq (adjustMulti_works n (.fixed k))
    refine emit_works rfl (by simp [Opcode.touched, Opcode.operands]) ?_
    simp only [Instruction.stackEffect, Arity.slots, if_neg (show ¬k = 0 by omega)]
    omega

/-! ## Operators -/

/-- A jump whose exit has no other locals than are live after it. -/
theorem Puts.links {op : Opcode} {a b : Nat} (puts : Puts F s t op a b) (jump : op.isJump = true)
    (touched : op.touched a b ≤ n) (effect : Instruction.stackEffect op a b = (m : Int) - n)
    {exits : List (Nat × Scope)} {ρ : Scope} (exit : (a, ρ) ∈ exits) (narrows : ρ.Narrows t.scope) :
    Links F exits n m s t [] := by
  have keeps : Instruction.closedEffect op a = 0 := by cases op <;> cases jump <;> rfl
  refine ⟨puts.trades effect keeps, fun {g e} bears _ => ?_⟩
  have floor := bears.floor
  have other : op ≠ .closeVars := by
    rintro rfl
    cases jump
  have passes : s.scope.Passes op a b t.scope := bears.passes touched other puts.locals puts.depth puts.closed
  have admits : Admits F.unit e g s.scope op a b none :=
    { ascending := bears.ascending, floor := Or.inl (by omega), room := fun _ => Or.inr (by omega)
      avoids := by rintro rfl; cases jump
      names := by refine ⟨?_, ?_, ?_, ?_, ?_, ?_⟩ <;> (rintro rfl; cases jump)
      live := by simp
      nested := by rintro rfl; cases jump }
  refine puts.charts admits (fun _ => passes) trivial (fun _ => ⟨ρ, exit, passes.narrows narrows⟩) ?_
  rintro rfl
  cases jump

section

variable {a : Nat} {exits : List (Nat × Scope)} {ρ : Scope}

theorem Puts.jmp (puts : Puts F s t .jmp a 0) (exit : (a, ρ) ∈ exits) (narrows : ρ.Narrows t.scope) (n : Nat) :
    Links F exits n n s t [] :=
  puts.links rfl (Nat.zero_le n) (by simp only [Instruction.stackEffect]; omega) exit narrows

theorem Puts.jmpTrue (puts : Puts F s t .jmpTrue a 0) (exit : (a, ρ) ∈ exits) (narrows : ρ.Narrows t.scope)
    (n : Nat) : Links F exits (n + 1) n s t [] :=
  puts.links rfl (Nat.le_add_left 1 n) (by simp [Instruction.stackEffect]) exit narrows

theorem Puts.peek (puts : Puts F s t .jmpTrue a 1) (exit : (a, ρ) ∈ exits) (narrows : ρ.Narrows t.scope)
    (n : Nat) : Links F exits (n + 1) (n + 1) s t [] :=
  puts.links rfl (Nat.le_add_left 1 n) (by simp only [Instruction.stackEffect, if_pos]; omega) exit narrows

end

section

variable {lhs rhs : Compiler Unit} {L R : List String → Namings}

theorem binary_strict_works {op : BinaryOp} (strict : op ≠ .and ∧ op ≠ .or) (left : Works n lhs (n + 1) L)
    (right : Works (n + 1) rhs (n + 2) R) :
    Works n (binary op lhs rhs) (n + 1) fun names => L names ++ R names := by
  have operator : Works (n + 2) (emit (binaryOpcode op).1 0 0) (n + 1) quiet := by
    cases op <;> exact emit_pair _ rfl rfl rfl n
  rw [binary_eq strict]
  refine left.seq (right.quietly (operator.seq ?_))
  split
  · exact emit_single .not rfl rfl rfl n
  · exact .nothing _ _

theorem binary_and_works (left : Works n lhs (n + 1) L) (right : Works n rhs (n + 1) R) :
    Works n (binary .and lhs rhs) (n + 1) fun names => L names ++ R names := by
  intro s
  refine Lays.label (Lays.label ((left _).seq fun _ s₁ g₁ => (emitJump_lays rfl true _).seq fun _ s₂ g₂ =>
    (emitJump_lays rfl false _).seq fun _ s₃ g₃ => ?_))
  have take := ((awaits_labelled s).labelled.grown g₁).grown g₂ |>.grown g₃
  have done := ((awaits_labelled s.labelled).grown g₁).grown g₂ |>.grown g₃
  have differ : s.builder.labels.size ≠ s.labelled.builder.labels.size := by
    rw [size_labelled]
    omega
  refine Lays.place (Nat.le_refl _) take ((pop_works n 1 _).seq fun _ s₄ g₄ => (right _).seq fun _ s₅ g₅ => ?_)
  refine Lays.place_last (by rw [size_labelled]; omega) (((done.placed differ).grown g₄).grown g₅) ?_
  rintro F here links₅ links₄ there ⟨_, place₃, puts₃⟩ ⟨_, place₂, puts₂⟩ links₁
  obtain rfl := place₂.unique there
  obtain rfl := place₃.unique here
  have links₃ : Links F [(s₃.ip, s₂.scope), (s₅.ip, s₃.scope)] (n + 1) (n + 1) s₂ s₃ [] :=
    puts₃.jmp (by simp) (.refl _) (n + 1)
  have first := (links₁.labelled.labelled.any.quietly
    ((puts₂.peek (by simp) (.refl _) n).trans links₃)).closing links₃.trades.narrows
  have second := (links₄.trans links₅).placed
  have sees : s₄.sees = s.sees := (first.trades.trans links₄.placed.trades).sees
  have second : Links F [] (n + 1) (n + 1) s₃ s₅ (R s.sees) := sees ▸ second
  exact ((first.trans second.any).closing second.trades.narrows).places

theorem binary_or_works (left : Works n lhs (n + 1) L) (right : Works n rhs (n + 1) R) :
    Works n (binary .or lhs rhs) (n + 1) fun names => L names ++ R names := by
  intro s
  refine Lays.label ((left _).seq fun _ s₁ g₁ => (emitJump_lays rfl true _).seq fun _ s₂ g₂ =>
    (pop_works n 1 _).seq fun _ s₃ g₃ => (right _).seq fun _ s₄ g₄ => ?_)
  have done := ((((awaits_labelled s).grown g₁).grown g₂).grown g₃).grown g₄
  refine Lays.place_last (Nat.le_refl _) done ?_
  rintro F here links₄ links₃ ⟨_, place₂, puts₂⟩ links₁
  obtain rfl := place₂.unique here
  have first := links₁.labelled.any.quietly
    (puts₂.peek (List.mem_singleton_self (s₄.ip, s₂.scope)) (.refl _) n)
  have second := links₃.trans links₄
  have sees : s₃.sees = s.sees := (first.trades.trans links₃.trades).sees
  have second : Links F [] (n + 1) (n + 1) s₂ s₄ (R s.sees) := sees ▸ second
  exact ((first.trans second.any).closing second.trades.narrows).places

theorem binary_works (op : BinaryOp) (left : ∀ n, Works n lhs (n + 1) L) (right : ∀ n, Works n rhs (n + 1) R)
    (n : Nat) : Works n (binary op lhs rhs) (n + 1) fun names => L names ++ R names := by
  by_cases isAnd : op = .and
  · exact isAnd ▸ binary_and_works (left n) (right n)
  by_cases isOr : op = .or
  · exact isOr ▸ binary_or_works (left n) (right n)
  exact binary_strict_works ⟨isAnd, isOr⟩ (left n) (right (n + 1))

end

end ScriptEngine.Compiler
