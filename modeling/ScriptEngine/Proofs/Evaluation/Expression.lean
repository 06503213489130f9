import ScriptEngine.Proofs.Compiler.Balance
import ScriptEngine.Proofs.Evaluation.Emission
import ScriptEngine.Proofs.Evaluation.Ending

/-!
# What compiled expressions compute

While code is compiled, its scope says which slots there will be and which variables are in them.
`Describes` relates a scope to the environment and the slots of a run, and `Goes` says how a run ends
that is at the place of a compiler state. The code of an expression evaluates the expression and pushes
its value: if the run ends well after that code, it ends well before it (`Computes`).
-/

set_option linter.dupNamespace false

namespace ScriptEngine

theorem append_temps (items : List Item) (vs vs' : List Value) :
    items ++ temps vs ++ temps vs' = items ++ temps (vs ++ vs') := by
  rw [List.append_assoc, temps, temps, temps, List.map_append]

theorem append_temps_nil (items : List Item) : items ++ temps [] = items := List.append_nil items

/-- Variables are not among temporaries. -/
theorem getElem?_append_temps {items : List Item} {vs : List Value} {i a : Nat} :
    (items ++ temps vs)[i]? = some (.named a) ↔ items[i]? = some (.named a) := by
  rcases Nat.lt_or_ge i items.length with inside | outside
  · rw [List.getElem?_append_left inside]
  · rw [List.getElem?_append_right outside, List.getElem?_eq_none outside, temps, List.getElem?_map]
    cases vs[i - items.length]? <;> simp

theorem getElem?_append_of_eq_some {items : List Item} {i : Nat} {item : Item}
    (h : items[i]? = some item) (more : List Item) : (items ++ more)[i]? = some item := by
  rw [List.getElem?_append_left (List.getElem?_eq_some_iff.1 h).1]
  exact h

namespace Compiler

/-! ## Scopes and slots -/

/-- The locals stand for the variables of the environment. -/
def Matches (locals : List Local) (env : Environment) (items : List Item) : Prop :=
  List.Forall₂ (fun l v => l.name = v.1 ∧ items[l.slot]? = some (.named v.2)) locals env

theorem Matches.mono {locals : List Local} {env : Environment} {items items' : List Item}
    (h : Matches locals env items)
    (found : ∀ i a : Nat, items[i]? = some (.named a) → items'[i]? = some (.named a)) :
    Matches locals env items' :=
  List.Forall₂.imp (fun _ _ here => ⟨here.1, found _ _ here.2⟩) h

/-- What a name stands for. -/
theorem Matches.lookup {locals : List Local} {env : Environment} {items : List Item}
    (h : Matches locals env items) (name : String) :
    (∃ l address, locals.find? (·.name == name) = some l ∧ env.lookup name = some address ∧
      items[l.slot]? = some (.named address)) ∨
    locals.find? (·.name == name) = none ∧ env.lookup name = none := by
  induction h with
  | nil => exact Or.inr ⟨rfl, rfl⟩
  | @cons l v locals env here _ ih =>
    obtain ⟨same, slot⟩ := here
    by_cases hit : l.name = name
    · refine Or.inl ⟨l, v.2, by simp [hit], ?_, slot⟩
      rw [List.lookup_cons, show (name == v.1) = true by simp [← same, hit]]
    · have miss : (name == v.1) = false := by simp [← same, Ne.symm hit]
      rw [List.lookup_cons, miss, List.find?_cons_of_neg (by simpa using hit)]
      exact ih

/-- What is live at a state. -/
def State.scope (s : State) : Scope := ⟨s.locals, s.depth, s.closed⟩

/-- The scope has these slots, and its locals are the variables of the environment. -/
structure Scope.Describes (scope : Scope) (env : Environment) (items : List Item) : Prop where
  depth : items.length = scope.depth
  locals : Matches scope.locals env items

theorem Scope.Describes.count {s : State} {env : Environment} {items : List Item} {vs : List Value}
    (h : s.scope.Describes env (items ++ temps vs)) : items.length + vs.length = s.depth := by
  have count : (items ++ temps vs).length = s.depth := h.depth
  rwa [List.length_append, length_temps] at count

/-- Temporaries come and go. -/
theorem Scope.Describes.turn {s t : State} {env : Environment} {items : List Item}
    {vs vs' : List Value} (h : s.scope.Describes env (items ++ temps vs)) (locals : t.locals = s.locals)
    (depth : (t.depth : Int) = s.depth + vs'.length - vs.length) :
    t.scope.Describes env (items ++ temps vs') := by
  have count := h.count
  have same : Matches s.locals env (items ++ temps vs) := h.locals
  constructor
  · show (items ++ temps vs').length = t.depth
    rw [List.length_append, length_temps]
    omega
  · show Matches t.locals env _
    rw [locals]
    exact Matches.mono same fun i a found => getElem?_append_temps.2 (getElem?_append_temps.1 found)

theorem Scope.Describes.push {s t : State} {env : Environment} {items : List Item} (vs : List Value)
    (h : s.scope.Describes env items) (locals : t.locals = s.locals)
    (depth : t.depth = s.depth + vs.length) : t.scope.Describes env (items ++ temps vs) := by
  have h : s.scope.Describes env (items ++ temps []) := by simpa [temps] using h
  refine h.turn locals ?_
  rw [depth]
  simp

theorem Scope.Describes.same {s t : State} {env : Environment} {items : List Item}
    (h : s.scope.Describes env items) (locals : t.locals = s.locals) (depth : t.depth = s.depth) :
    t.scope.Describes env items :=
  ⟨h.depth.trans depth.symm, by rw [State.scope, locals]; exact h.locals⟩

/-- A run at the place of `s` ends with `o` if its slots are as `s` has them. -/
def Goes (F : Finished) (s : State) (env : Environment) (items : List Item) (w : World) (o : Ending) :
    Prop :=
  s.scope.Describes env items → Ends F.unit s.ip items w o

variable {F : Finished} {s t : State} {k : Nat} {env : Environment} {items : List Item} {w : World}
  {o : Ending}

/-! ## Instructions -/

namespace Emits

variable {op : Opcode} {a b : Nat}

theorem pushes (h : Emits F s t op a b) {n : Nat} (effect : Instruction.stackEffect op a b = n) :
    t.depth = s.depth + n := by
  have := h.depth
  omega

/-- An instruction that works on the topmost temporaries. -/
theorem operate {α : Type} {xs : List Value} {x : Evaluation α} {f : α → List Value}
    (h : Emits F s t op a b) (plain : op ≠ .ret)
    (implements : (Exec.perform ⟨F.unit, #[]⟩ op a b).Implements xs x f)
    (effect : ∀ r, ((f r).length : Int) = xs.length + Instruction.stackEffect op a b)
    (gives : x.Gives w o fun r w' => Goes F t env (items ++ temps (f r)) w' o) :
    Goes F s env (items ++ temps xs) w o := by
  intro described
  refine Ends.operate h.holds plain implements (gives.mono fun r w' goes => ?_)
  rw [← h.ip]
  refine goes (described.turn h.locals ?_)
  have := h.depth
  have := effect r
  omega

theorem popStack {more : List Item} (h : Emits F s t .popStack a b) (count : more.length = a)
    (next : Ends F.unit t.ip items w o) : Ends F.unit s.ip (items ++ more) w o :=
  Ends.popStack h.holds count (by rw [← h.ip]; exact next)

/-- Copying a slot. -/
theorem getStack {item : Item} {slot : Nat} (h : Emits F s t .getStack (s.depth - slot) b)
    (found : items[slot]? = some item)
    (next : Goes F t env (items ++ temps [item.value w]) w o) : Goes F s env items w o := by
  intro described
  have count : items.length = s.depth := described.depth
  have holds := h.holds
  rw [← count] at holds
  refine Ends.getStack holds found ?_
  rw [← h.ip]
  exact next (described.push _ h.locals (h.pushes rfl))

end Emits

/-! ## Code that pushes values -/

/-- Code of the unit from `s` to `t` that evaluates `x` and pushes `f` of its value in `n` slots. -/
structure Evaluates {α : Type} (F : Finished) (s t : State) (n : Nat)
    (x : Environment → Evaluation α) (f : α → List Value) : Prop where
  locals : t.locals = s.locals
  depth : t.depth = s.depth + n
  goes : ∀ {env items w o}, (x env).Gives w o (fun a w' => Goes F t env (items ++ temps (f a)) w' o) →
    Goes F s env items w o

/-- The code that `c` adds evaluates `x` and pushes `f` of its value in `n` slots. -/
def Computes {α : Type} (c : Compiler Unit) (n : Nat) (x : Environment → Evaluation α)
    (f : α → List Value) : Prop :=
  ∀ s, Adds s.builder.labels.size c s fun _ t F => Evaluates F s t n x f

theorem Computes.line {α : Type} {c : Compiler Unit} {n line : Nat} {x : Environment → Evaluation α}
    {f : α → List Value} (h : Computes c n x f) : Computes (do setLine line; c) n x f :=
  fun s => Adds.line ((h { s with line }).mono fun _ _ _ done => ⟨done.locals, done.depth, done.goes⟩)

theorem loadConstant_computes {v : Value} (isExact : v.IsExact) :
    Computes (loadConstant v) 1 (fun _ => pure v) ([·]) := by
  intro s
  refine (addConstant_adds isExact).seq fun i r _ => (emit_adds .loadK i 0).mono ?_
  rintro - t F emits ⟨⟨builder, rfl, same⟩, found⟩
  refine ⟨emits.locals, emits.pushes rfl, fun {env items w o} gives described => ?_⟩
  have holds := emits.holds
  have ip := emits.ip
  simp only [State.ip, same] at holds ip ⊢
  refine Ends.loadK holds found ?_
  rw [← ip]
  exact gives (described.push [v] emits.locals (emits.pushes rfl))

/-- In a chunk without functions a name leads to a local or to a global. -/
theorem State.Ready.resolve (ready : s.Ready) (name : String) :
    (∃ l, s.locals.find? (·.name == name) = some l ∧ s.resolve name = .slot l.slot) ∨
      s.locals.find? (·.name == name) = none ∧ s.resolve name = .global := by
  rw [State.resolve, ready.enclosing]
  cases s.locals.find? (·.name == name) with
  | some l => exact Or.inl ⟨l, rfl, rfl⟩
  | none => exact Or.inr ⟨rfl, rfl⟩

/-- The compiler and the run agree on what a name stands for. -/
theorem Scope.Describes.lookup_some (h : s.scope.Describes env items) {name : String} {l : Local}
    (found : s.locals.find? (·.name == name) = some l) :
    ∃ address, env.lookup name = some address ∧ items[l.slot]? = some (.named address) := by
  rcases h.locals.lookup name with ⟨l', address, found', seen, slot⟩ | ⟨missing, -⟩
  · obtain rfl : l = l' := Option.some.inj (found.symm.trans found')
    exact ⟨address, seen, slot⟩
  · cases found.symm.trans missing

theorem Scope.Describes.lookup_none (h : s.scope.Describes env items) {name : String}
    (missing : s.locals.find? (·.name == name) = none) : env.lookup name = none := by
  rcases h.locals.lookup name with ⟨l, address, found, -⟩ | ⟨-, unseen⟩
  · cases missing.symm.trans found
  · exact unseen

theorem getSlot_adds (slot : Nat) :
    Adds k (getSlot slot) s fun _ t F => Emits F s t .getStack (s.depth - slot) 0 :=
  Adds.read (emit_adds _ _ _)

theorem readVar_computes (name : String) :
    Computes (readVar name) 1 (Evaluation.read · name) ([·]) := by
  intro s ready
  refine Adds.read ?_ ready
  rcases ready.resolve name with ⟨l, found, leads⟩ | ⟨missing, leads⟩
  · rw [leads]
    refine (getSlot_adds l.slot).mono fun _ t F emits => ⟨emits.locals, emits.pushes rfl, ?_⟩
    intro env items w o gives described
    obtain ⟨address, seen, slot⟩ := described.lookup_some found
    rw [Evaluation.read, seen] at gives
    exact emits.getStack slot gives described
  · rw [leads]
    refine (addConstant_adds (v := .string name) trivial).seq fun i r _ =>
      (emit_adds .getGlobal i 0).mono ?_
    rintro - t F emits ⟨⟨builder, rfl, same⟩, constant⟩
    refine ⟨emits.locals, emits.pushes rfl, fun {env items w o} gives described => ?_⟩
    rw [Evaluation.read, described.lookup_none missing] at gives
    have holds := emits.holds
    have ip := emits.ip
    simp only [State.ip, same] at holds ip ⊢
    refine Ends.getGlobal holds constant ?_
    rw [← ip]
    exact gives (described.push [_] emits.locals (emits.pushes rfl))

/-- Code of the unit from `s` to `t` that drops `n` slots. -/
structure Drops (F : Finished) (s t : State) (n : Nat) : Prop where
  locals : t.locals = s.locals
  depth : t.depth + n = s.depth
  ends : ∀ {items more w o}, more.length = n → Ends F.unit t.ip items w o →
    Ends F.unit s.ip (items ++ more) w o

theorem pop_adds (n : Nat) : Adds k (pop n) s fun _ t F => Drops F s t n := by
  unfold pop
  split
  · rename_i zero
    subst zero
    refine Adds.pure fun F => ⟨rfl, rfl, fun none' next => ?_⟩
    rw [List.eq_nil_of_length_eq_zero none', List.append_nil]
    exact next
  · refine (emit_adds .popStack n 0).mono fun _ t F emits => ⟨emits.locals, ?_, emits.popStack⟩
    have := emits.depth
    simp only [Instruction.stackEffect] at this
    omega

theorem loadNil_computes (n : Nat) :
    Computes (loadNil n) n (fun _ => pure ()) fun _ => List.replicate n .nil := by
  induction n with
  | zero =>
    refine fun s => Adds.pure fun F => ⟨rfl, rfl, fun {env items w o} gives => ?_⟩
    rw [← append_temps_nil items]
    exact gives
  | succ n ih =>
    refine fun s => (loadConstant_computes (v := .nil) trivial s).seq fun _ r _ => (ih r).mono ?_
    intro _ t F rest first
    refine ⟨rest.locals.trans first.locals, by rw [rest.depth, first.depth]; omega, ?_⟩
    intro env items w o gives
    refine first.goes (rest.goes ?_)
    show Goes F t env _ w o
    rw [append_temps]
    exact gives

/-! ## Several slots for one value -/

/-- The slots that one value fills. -/
def Arity.fill : Arity → Value → List Value
  | .fixed n, v => Value.adjust n [v]
  | .multi, v => [v]

/-- One value that is on top becomes as many as are wanted. -/
theorem Computes.adjust {c : Compiler Unit} {x : Environment → Evaluation Value}
    (h : Computes c 1 x ([·])) (arity : Arity) :
    Computes (do c; adjustSingle arity) arity.slots x arity.fill := by
  intro s
  refine (h s).seq fun _ r _ => ?_
  match arity with
  | .multi => exact Adds.pure fun F done => done
  | .fixed 0 =>
    refine (pop_adds 1).mono fun _ t F drops done => ?_
    refine ⟨drops.locals.trans done.locals, ?_, fun {env items w o} gives described => ?_⟩
    · have := drops.depth
      have := done.depth
      simp only [Arity.slots]
      omega
    · refine done.goes (gives.mono fun v w' goes pushed => ?_) described
      refine drops.ends rfl ?_
      rw [Arity.fill, show Value.adjust 0 [v] = [] from rfl, append_temps_nil] at goes
      have := drops.depth
      have := done.depth
      rw [← append_temps_nil items]
      rw [← append_temps_nil items] at goes
      exact goes (pushed.turn drops.locals (by simp; omega))
  | .fixed (n + 1) =>
    refine (loadNil_computes n r).mono fun _ t F fills done => ?_
    refine ⟨fills.locals.trans done.locals, ?_, fun {env items w o} gives => ?_⟩
    · have := fills.depth
      have := done.depth
      simp only [Arity.slots]
      omega
    · refine done.goes (gives.mono fun v w' goes => fills.goes ?_)
      show Goes F t env _ w' o
      rw [append_temps]
      simpa [Arity.fill, Value.adjust] using goes

/-! ## Operators -/

/-- An instruction that puts one value in the place of the topmost ones. -/
theorem Emits.apply {op : Opcode} {xs : List Value} {x : Evaluation Value} (h : Emits F s t op 0 0)
    (plain : op ≠ .ret) (implements : (Exec.perform ⟨F.unit, #[]⟩ op 0 0).Implements xs x ([·]))
    (effect : (xs.length : Int) + Instruction.stackEffect op 0 0 = 1)
    (gives : x.Gives w o fun v w' => Goes F t env (items ++ temps [v]) w' o) :
    Goes F s env (items ++ temps xs) w o :=
  h.operate plain implements (fun _ => by rw [effect]; rfl) gives

theorem unary_computes (op : UnaryOp) {c : Compiler Unit} {x : Environment → Evaluation Value}
    (h : Computes c 1 x ([·])) :
    Computes (do c; emit (unaryOpcode op) 0 0) 1
      (fun env => do Evaluation.unary op (← x env)) ([·]) := by
  intro s
  have neutral : Instruction.stackEffect (unaryOpcode op) 0 0 = 0 := by cases op <;> rfl
  refine (h s).seq fun _ r _ => (emit_adds (unaryOpcode op) 0 0).mono ?_
  intro _ t F emits done
  refine ⟨emits.locals.trans done.locals, ?_, fun {env items w o} gives => ?_⟩
  · rw [emits.pushes neutral, done.depth]
  · refine done.goes (gives.bind.mono fun v w' gives => ?_)
    exact emits.apply (by cases op <;> simp [unaryOpcode]) (Exec.unary_implements ..)
      (by rw [neutral]; rfl) gives

theorem two_temps (items : List Item) (v v' : Value) :
    items ++ temps [v] ++ temps [v'] = items ++ temps [v, v'] := append_temps ..

theorem binary_strict_computes {op : BinaryOp} (strict : op ≠ .and ∧ op ≠ .or) {c d : Compiler Unit}
    {x y : Environment → Evaluation Value} (left : Computes c 1 x ([·])) (right : Computes d 1 y ([·])) :
    Computes (binary op c d) 1 (fun env => do
      let v ← x env
      Evaluation.binary op v (← y env)) ([·]) := by
  intro s
  rw [binary_eq strict]
  have effect : Instruction.stackEffect (binaryOpcode op).1 0 0 = -1 := by cases op <;> rfl
  have plain : (binaryOpcode op).1 ≠ .ret := by cases op <;> simp [binaryOpcode]
  refine (left s).seq fun _ r₁ _ => (right r₁).seq fun _ r₂ _ => (emit_adds _ 0 0).seq fun _ r₃ _ => ?_
  -- the value before it is negated, if it is
  have both {F : Finished} (second : Emits F r₂ r₃ (binaryOpcode op).1 0 0)
      (rhs : Evaluates F r₁ r₂ 1 y ([·])) (lhs : Evaluates F s r₁ 1 x ([·])) :
      Evaluates F s r₃ 1 (fun env => do
        let v ← x env
        Evaluation.binary op.positive v (← y env)) ([·]) := by
    refine ⟨second.locals.trans (rhs.locals.trans lhs.locals), ?_, fun {env items w o} gives => ?_⟩
    · have := second.depth
      have := rhs.depth
      have := lhs.depth
      omega
    · refine lhs.goes (gives.bind.mono fun v w₁ gives => rhs.goes ?_)
      refine gives.bind.mono fun v' w₂ gives => ?_
      rw [two_temps]
      exact second.apply plain (Exec.binary_implements ..) (by rw [effect]; rfl) gives
  have whole (env : Environment) : (do
      let v ← x env
      Evaluation.binary op v (← y env)) = ((do
        let v ← x env
        Evaluation.binary op.positive v (← y env)) >>= fun v =>
          if (binaryOpcode op).2 then pure (.boolean !v.isTruthy) else pure v) := by
    simp only [Evaluation.binary_eq op, bind_assoc]
  simp only [whole]
  cases negated : (binaryOpcode op).2 with
  | false =>
    refine Adds.pure fun F second rhs lhs => ?_
    simpa only [Bool.false_eq_true, if_false, bind_pure] using both second rhs lhs
  | true =>
    refine (emit_adds .not 0 0).mono fun _ t F emits second rhs lhs => ?_
    have done := both second rhs lhs
    refine ⟨emits.locals.trans done.locals, by rw [emits.pushes rfl, done.depth], ?_⟩
    intro env items w o gives
    refine done.goes (gives.bind.mono fun v w₁ gives => ?_)
    exact emits.apply (by simp) (Exec.not_implements ..) rfl gives

/-! ### Operators that may leave their second operand alone -/

/-- A conditional jump that leaves its condition on the stack. -/
theorem Emits.jmpTrue_peek {v : Value} {address : Nat} (h : Emits F s t .jmpTrue address 1)
    (yes : v.isTruthy = true → Ends F.unit address (items ++ temps [v]) w o)
    (no : v.isTruthy = false → Ends F.unit t.ip (items ++ temps [v]) w o) :
    Ends F.unit s.ip (items ++ temps [v]) w o := by
  refine Ends.jmpTrue_peek h.holds ?_
  rw [← h.ip]
  cases truth : v.isTruthy with
  | true => exact yes truth
  | false => exact no truth

theorem jmp_adds (l : Nat) : Adds k (emitJump .jmp false l) s fun _ t F =>
    ∃ address, F.Places l address ∧ Emits F s t .jmp address 0 :=
  emitJump_adds .jmp false l fun _ _ => rfl

theorem jmpTrue_adds (peek : Bool) (l : Nat) : Adds k (emitJump .jmpTrue peek l) s fun _ t F =>
    ∃ address, F.Places l address ∧ Emits F s t .jmpTrue address (if peek then 1 else 0) :=
  emitJump_adds .jmpTrue peek l fun _ _ => rfl

section Short

variable {c d : Compiler Unit} {x y : Environment → Evaluation Value}

theorem binary_or_computes (left : Computes c 1 x ([·])) (right : Computes d 1 y ([·])) :
    Computes (binary .or c d) 1 (fun env => do
      let v ← x env
      if v.isTruthy then pure v else y env) ([·]) := by
  intro s
  refine Adds.label ((left _).seq fun _ r₁ e₁ => (jmpTrue_adds true _).seq fun _ r₂ e₂ => ?_)
  refine (pop_adds 1).seq fun _ r₃ e₃ => (right r₃).seq fun _ r₄ e₄ => ?_
  have awaits := ((((awaits_labelled s).after e₁).after e₂).after e₃).after e₄
  refine Adds.place_last (Nat.le_refl _) awaits ?_
  rintro F done rhs drops ⟨address, place, jump⟩ lhs
  obtain rfl := place.unique done
  have locals : r₄.locals = r₁.locals := rhs.locals.trans (drops.locals.trans jump.locals)
  have depth : r₄.depth = r₁.depth := by
    have := jump.depth
    have := drops.depth
    have := rhs.depth
    simp only [if_true, Instruction.stackEffect] at *
    omega
  refine ⟨locals.trans lhs.locals, depth.trans lhs.depth, fun {env items w o} gives => ?_⟩
  refine lhs.goes (gives.bind.mono fun v w₁ gives described => ?_)
  refine jump.jmpTrue_peek (fun truth => ?_) fun truth => ?_
  · rw [if_pos truth] at gives
    exact gives (described.turn (t := r₄) locals (by omega))
  · rw [if_neg (by simp [truth])] at gives
    refine drops.ends rfl (rhs.goes gives ?_)
    rw [← append_temps_nil items]
    refine described.turn (drops.locals.trans jump.locals) ?_
    have := rhs.depth
    simp
    omega

theorem binary_and_computes (left : Computes c 1 x ([·])) (right : Computes d 1 y ([·])) :
    Computes (binary .and c d) 1 (fun env => do
      let v ← x env
      if v.isTruthy then y env else pure v) ([·]) := by
  intro s
  have size := size_labelled s
  refine Adds.label (Adds.label ((left _).seq fun _ r₁ e₁ => ?_))
  refine (jmpTrue_adds true _).seq fun _ r₂ e₂ => (jmp_adds _).seq fun _ r₃ e₃ => ?_
  have awaits := ((((awaits_labelled s).labelled.after e₁).after e₂).after e₃)
  have awaits' := ((((awaits_labelled s.labelled).after e₁).after e₂).after e₃)
  refine Adds.place (Nat.le_refl _) awaits ((pop_adds 1).seq fun _ r₄ e₄ => ?_)
  refine (right r₄).seq fun _ r₅ e₅ => ?_
  refine Adds.place_last (by omega) (((awaits'.placed (by omega)).after e₄).after e₅) ?_
  rintro F done rhs drops take ⟨address', place', skip⟩ ⟨address, place, jump⟩ lhs
  obtain rfl := place.unique take
  obtain rfl := place'.unique done
  have locals : r₃.locals = r₁.locals := skip.locals.trans jump.locals
  have locals' : r₅.locals = r₁.locals := rhs.locals.trans (drops.locals.trans locals)
  have depth : r₃.depth = r₁.depth := by
    have := jump.depth
    have := skip.depth
    simp only [if_true, Instruction.stackEffect] at *
    omega
  have depth' : r₅.depth = r₁.depth := by
    have : r₄.depth + 1 = r₃.depth := drops.depth
    have := rhs.depth
    omega
  refine ⟨locals'.trans lhs.locals, depth'.trans lhs.depth, fun {env items w o} gives => ?_⟩
  refine lhs.goes (gives.bind.mono fun v w₁ gives described => ?_)
  refine jump.jmpTrue_peek (fun truth => ?_) fun truth => ?_
  · rw [if_pos truth] at gives
    refine drops.ends rfl (rhs.goes gives ?_)
    rw [← append_temps_nil items]
    refine described.turn (drops.locals.trans locals) ?_
    have : r₄.depth + 1 = r₃.depth := drops.depth
    simp
    omega
  · rw [if_neg (by simp [truth])] at gives
    exact Ends.jmp skip.holds (gives (described.turn (t := r₅) locals' (by omega)))

end Short

/-! ## Tables -/

theorem getTable_computes {c d : Compiler Unit} {x y : Environment → Evaluation Value}
    (table : Computes c 1 x ([·])) (key : Computes d 1 y ([·])) :
    Computes (do c; d; emit .getTable 0 0) 1 (fun env => do
      let target ← x env
      Evaluation.index target (← y env)) ([·]) := by
  intro s
  refine (table s).seq fun _ r₁ _ => (key r₁).seq fun _ r₂ _ => (emit_adds .getTable 0 0).mono ?_
  intro _ t F emits second first
  refine ⟨emits.locals.trans (second.locals.trans first.locals), ?_, fun {env items w o} gives => ?_⟩
  · have := first.depth
    have := second.depth
    have := emits.depth
    simp only [Instruction.stackEffect] at this
    omega
  · refine first.goes (gives.bind.mono fun target w₁ gives => second.goes ?_)
    refine gives.bind.mono fun key w₂ gives => ?_
    rw [two_temps]
    exact emits.apply (by simp) (Exec.index_implements ..) rfl gives

/-- Code of the unit from `s` to `t` that works with the table on top and leaves it there. -/
structure Fills (F : Finished) (s t : State) (x : Environment → Value → Evaluation Unit) : Prop where
  locals : t.locals = s.locals
  depth : t.depth = s.depth
  goes : ∀ {env items table w o},
    (x env table).Gives w o (fun _ w' => Goes F t env (items ++ temps [table]) w' o) →
      Goes F s env (items ++ temps [table]) w o

/-- The code that `c` adds works with the table on top. -/
def Filling (c : Compiler Unit) (x : Environment → Value → Evaluation Unit) : Prop :=
  ∀ s, Adds s.builder.labels.size c s fun _ t F => Fills F s t x

/-- One field of a table, and then others. -/
theorem Filling.field {c d rest : Compiler Unit} {x y : Environment → Evaluation Value}
    {z : Environment → Value → Evaluation Unit} (key : Computes c 1 x ([·]))
    (value : Computes d 1 y ([·])) (others : Filling rest z) :
    Filling (do emit .getStack 1 0; c; d; emit .putTable 0 0; rest) (fun env table => do
      let k ← x env
      Evaluation.store table k (← y env)
      z env table) := by
  intro s
  refine (emit_adds .getStack 1 0).seq fun _ r₁ _ => (key r₁).seq fun _ r₂ _ => ?_
  refine (value r₂).seq fun _ r₃ _ => (emit_adds .putTable 0 0).seq fun _ r₄ _ => ?_
  refine (others r₄).mono fun _ t F after put second first copy => ?_
  have locals₄ := put.locals.trans (second.locals.trans (first.locals.trans copy.locals))
  have depth₄ : r₄.depth = s.depth := by
    have := put.depth
    have := second.depth
    have := first.depth
    have := copy.depth
    simp only [Instruction.stackEffect] at *
    omega
  refine ⟨after.locals.trans locals₄, after.depth.trans depth₄, ?_⟩
  intro env items table w o gives described
  have count : items.length + 1 = s.depth := described.count
  have copies : Emits F s r₁ .getStack (s.depth - items.length) 0 := by
    rwa [show s.depth - items.length = 1 by omega]
  have top : (items ++ temps [table])[items.length]? = some (.temporary table) := by
    simp [temps]
  refine copies.getStack top (first.goes ?_) described
  refine gives.bind.mono fun k w₁ gives => second.goes ?_
  refine gives.bind.mono fun v w₂ gives => ?_
  have stack : items ++ temps [table] ++ temps [(Item.temporary table).value w] ++ temps [k] ++
      temps [v] = items ++ temps [table] ++ temps [table, k, v] := by
    simp [temps, Item.value]
  rw [stack]
  refine put.operate (by simp) (Exec.putTable_implements ..) (fun _ => rfl) ?_
  refine gives.bind.mono fun _ w₃ gives => ?_
  rw [append_temps_nil]
  exact after.goes gives

theorem Filling.nothing : Filling (pure ()) fun _ _ => pure () :=
  fun _ => Adds.pure fun _ => ⟨rfl, rfl, fun gives => gives⟩

theorem table_computes {c : Compiler Unit} {x : Environment → Value → Evaluation Unit}
    (fills : Filling c x) :
    Computes (do emit .newTable 0 0; c) 1 (fun env => do
      let id ← Evaluation.newTable
      x env (.table id)
      pure (.table id)) ([·]) := by
  intro s
  refine (emit_adds .newTable 0 0).seq fun _ r _ => (fills r).mono fun _ t F fill new => ?_
  refine ⟨fill.locals.trans new.locals, fill.depth.trans (new.pushes rfl), ?_⟩
  intro env items w o gives
  rw [← append_temps_nil items]
  refine new.operate (by simp) (Exec.newTable_implements ..) (fun _ => rfl) ?_
  refine gives.bind.mono fun id w₁ gives => fill.goes ?_
  exact gives.bind.mono fun _ w₂ gives => gives

/-! ## Lists of values -/

/-- Code for one list of values after another. -/
theorem Computes.append {c d : Compiler Unit} {m n : Nat} {x : Environment → Evaluation Value}
    {y : Environment → Evaluation (List Value)} {f : Value → List Value}
    {g h : List Value → List Value} (first : Computes c m x f) (second : Computes d n y g)
    (together : ∀ v vs, f v ++ g vs = h (v :: vs)) :
    Computes (do c; d) (m + n) (fun env => do
      let v ← x env
      return v :: (← y env)) h := by
  intro s
  refine (first s).seq fun _ r _ => (second r).mono fun _ t F others one => ?_
  refine ⟨others.locals.trans one.locals, by rw [others.depth, one.depth]; omega, ?_⟩
  intro env items w o gives
  refine one.goes (gives.bind.mono fun v w₁ gives => others.goes ?_)
  refine gives.bind.mono fun vs w₂ gives => ?_
  rw [append_temps, together]
  exact gives

theorem adjust_cons (n : Nat) (v : Value) (vs : List Value) :
    Value.adjust (min n 1) [v] ++ Value.adjust (n - 1) vs = Value.adjust n (v :: vs) := by
  cases n <;> simp [Value.adjust]

/-! ## Expressions -/

/-- The value of a binary operation on the values of its operands. -/
theorem eval_strict {op : BinaryOp} (strict : op ≠ .and ∧ op ≠ .or) (lhs rhs : Expr) (line : Nat)
    (env : Environment) : (Expr.binary op lhs rhs line).eval env = (do
      let v ← lhs.eval env
      Evaluation.binary op v (← rhs.eval env)) := by
  cases op <;> first | rfl | simp at strict

theorem binary_computes (op : BinaryOp) {lhs rhs : Expr} {c d : Compiler Unit} (line : Nat)
    (left : Computes c 1 (lhs.eval ·) ([·])) (right : Computes d 1 (rhs.eval ·) ([·])) :
    Computes (binary op c d) 1 ((Expr.binary op lhs rhs line).eval ·) ([·]) := by
  by_cases isAnd : op = .and
  · subst isAnd
    exact binary_and_computes left right
  by_cases isOr : op = .or
  · subst isOr
    exact binary_or_computes left right
  simp only [eval_strict ⟨isAnd, isOr⟩]
  exact binary_strict_computes ⟨isAnd, isOr⟩ left right

/-- Only calls and `...` can give several values. -/
theorem isMulti_of_isCallFree {e : Expr} (free : e.isCallFree = true) : e.isMulti = false := by
  cases e with
  | varargs => cases free
  | call => cases free
  | methodCall => cases free
  | _ => rfl

mutual
theorem compileExpr_computes : ∀ (e : Expr) (arity : Arity), e.isCallFree = true →
    e.Regular (Number.isNegative · = false) →
      Computes (compileExpr e arity) arity.slots (e.eval ·) arity.fill
  | .nil _, arity, _, _ => by
    rw [compileExpr]
    exact ((loadConstant_computes (v := .nil) trivial).adjust arity).line
  | .boolean b _, arity, _, _ => by
    rw [compileExpr]
    exact ((loadConstant_computes (v := .boolean b) trivial).adjust arity).line
  | .number n _, arity, _, regular => by
    cases regular with
    | number literal =>
      rw [compileExpr]
      exact ((loadConstant_computes (v := .number n) literal).adjust arity).line
  | .string s _, arity, _, _ => by
    rw [compileExpr]
    exact ((loadConstant_computes (v := .string s) trivial).adjust arity).line
  | .name name _, arity, _, _ => by
    rw [compileExpr]
    exact ((readVar_computes name).adjust arity).line
  | .paren inner _, arity, free, regular => by
    cases regular with
    | paren operand =>
      rw [compileExpr]
      exact ((compileExpr_computes inner (.fixed 1) free operand).adjust arity).line
  | .unary op e _, arity, free, regular => by
    cases regular with
    | unary operand =>
      have code := (unary_computes op (compileExpr_computes e (.fixed 1) free operand)).adjust arity
      rw [bind_assoc] at code
      rw [compileExpr]
      exact code.line
  | .binary op lhs rhs line, arity, free, regular => by
    obtain ⟨free, free'⟩ := Bool.and_eq_true_iff.1 free
    cases regular with
    | binary left right =>
      rw [compileExpr]
      exact ((binary_computes op line (compileExpr_computes lhs (.fixed 1) free left)
        (compileExpr_computes rhs (.fixed 1) free' right)).adjust arity).line
  | .index t k _, arity, free, regular => by
    obtain ⟨free, free'⟩ := Bool.and_eq_true_iff.1 free
    cases regular with
    | index table key =>
      have code := (getTable_computes (compileExpr_computes t (.fixed 1) free table)
        (compileExpr_computes k (.fixed 1) free' key)).adjust arity
      simp only [bind_assoc] at code
      rw [compileExpr]
      exact code.line
  | .field t name _, arity, free, regular => by
    cases regular with
    | field table =>
      have code := (getTable_computes (compileExpr_computes t (.fixed 1) free table)
        (loadConstant_computes (v := .string name) trivial)).adjust arity
      simp only [bind_assoc] at code
      rw [compileExpr]
      exact code.line
  | .table fs _, arity, free, regular => by
    cases regular with
    | table fields =>
      have code := (table_computes (compileFields_filling fs 1 free fields)).adjust arity
      rw [bind_assoc] at code
      rw [compileExpr]
      exact code.line

theorem compileFields_filling : ∀ (fields : List TableField) (position : Nat),
    fieldsAreCallFree fields = true →
      (∀ f ∈ fields, f.Regular (Number.isNegative · = false)) →
        Filling (compileFields position fields) fun env table => evalFields env table position fields
  | [], _, _, _ => by
    rw [compileFields]
    exact .nothing
  | .positional e :: rest, position, free, regular => by
    obtain ⟨free, free'⟩ := Bool.and_eq_true_iff.1 free
    obtain ⟨here, others⟩ := List.forall_mem_cons.1 regular
    cases here with
    | positional value =>
      have arity : (if rest.isEmpty && e.isMulti then Arity.multi else .fixed 1) = .fixed 1 := by
        simp [isMulti_of_isCallFree free]
      have code := Filling.field (loadConstant_computes (v := .number (Float.ofNat position))
        (Number.isNegative_ofNat position)) (compileExpr_computes e (.fixed 1) free value)
        (compileFields_filling rest (position + 1) free' others)
      rw [compileFields, arity]
      exact code
  | .named name e :: rest, position, free, regular => by
    obtain ⟨free, free'⟩ := Bool.and_eq_true_iff.1 free
    obtain ⟨here, others⟩ := List.forall_mem_cons.1 regular
    cases here with
    | named value =>
      rw [compileFields]
      exact Filling.field (loadConstant_computes (v := .string name) trivial)
        (compileExpr_computes e (.fixed 1) free value) (compileFields_filling rest position free' others)
  | .keyed k e :: rest, position, free, regular => by
    obtain ⟨free, free'⟩ := Bool.and_eq_true_iff.1 free
    obtain ⟨free, free''⟩ := Bool.and_eq_true_iff.1 free
    obtain ⟨here, others⟩ := List.forall_mem_cons.1 regular
    cases here with
    | keyed key value =>
      rw [compileFields]
      exact Filling.field (compileExpr_computes k (.fixed 1) free key)
        (compileExpr_computes e (.fixed 1) free'' value)
        (compileFields_filling rest position free' others)
end

theorem compileValues_computes : ∀ (count : Nat) (es : List Expr), es.all Expr.isCallFree = true →
    (∀ e ∈ es, e.Regular (Number.isNegative · = false)) →
      Computes (compileValues count es) count (evalAll · es) (Value.adjust count)
  | count, [], _, _ => by
    rw [compileValues]
    have same : Value.adjust count [] = List.replicate count .nil := by simp [Value.adjust]
    refine fun s => (loadNil_computes count s).mono fun _ t F done => ?_
    refine ⟨done.locals, done.depth, fun {env items w o} gives => done.goes ?_⟩
    show Goes F t env (items ++ temps (List.replicate count .nil)) w o
    rw [← same]
    exact gives
  | count, [e], free, regular => by
    obtain ⟨free, -⟩ := Bool.and_eq_true_iff.1 free
    have one := compileExpr_computes e (.fixed count) free (regular e List.mem_cons_self)
    rw [compileValues]
    refine fun s => (one s).mono fun _ t F done => ⟨done.locals, done.depth, fun gives => ?_⟩
    exact done.goes (gives.bind.mono fun v w' gives => gives)
  | count, e :: f :: rest, free, regular => by
    obtain ⟨free, free'⟩ := Bool.and_eq_true_iff.1 free
    obtain ⟨here, others⟩ := List.forall_mem_cons.1 regular
    have code := (compileExpr_computes e (.fixed (min count 1)) free here).append
      (compileValues_computes (count - 1) (f :: rest) free' others) (adjust_cons count)
    rw [Arity.slots, show min count 1 + (count - 1) = count by omega] at code
    rw [compileValues]
    exact code

theorem compileMultiList_computes : ∀ es : List Expr, es.all Expr.isCallFree = true →
    (∀ e ∈ es, e.Regular (Number.isNegative · = false)) →
      Computes (compileMultiList es) es.length (evalAll · es) id
  | [], _, _ => by
    rw [compileMultiList]
    refine fun s => Adds.pure fun F => ⟨rfl, rfl, fun {env items w o} gives => ?_⟩
    rw [← append_temps_nil items]
    exact gives
  | [e], free, regular => by
    obtain ⟨free, -⟩ := Bool.and_eq_true_iff.1 free
    have one := compileExpr_computes e .multi free (regular e List.mem_cons_self)
    rw [compileMultiList]
    refine fun s => (one s).mono fun _ t F done => ⟨done.locals, done.depth, fun gives => ?_⟩
    exact done.goes (gives.bind.mono fun v w' gives => gives)
  | e :: f :: rest, free, regular => by
    obtain ⟨free, free'⟩ := Bool.and_eq_true_iff.1 free
    obtain ⟨here, others⟩ := List.forall_mem_cons.1 regular
    have code := (compileExpr_computes e (.fixed 1) free here).append
      (compileMultiList_computes (f :: rest) free' others) (h := id) fun _ _ => rfl
    rw [Arity.slots, Nat.add_comm] at code
    rw [compileMultiList]
    exact code

end Compiler

end ScriptEngine
