import ScriptEngine.Proofs.Compiler.Looping
import ScriptEngine.Proofs.Compiler.Verified

/-!
# Every compiled unit has a chart

By induction over the syntax (`compileExpr_works` to `compileStmts_settles`): all code that the compiler
emits can be charted, and so a compiled chunk has a chart, and so have the units nested in it
(`compile_charted`).
-/

set_option linter.dupNamespace false

namespace ScriptEngine.Compiler

variable {α β : Type} {s t : State} {F : Whole} {g : Ground} {n m k : Nat} {exit : Option LoopExit}
  {enclosing : List (String × Nat)} {exits : List (Nat × Scope)} {T T' : Namings}

/-! ## Returns and generic loops -/

/-- The code from `s` to `t` takes `n` temporaries, does `T` about names and does not come out at its end. -/
structure Departs (F : Whole) (n : Nat) (s t : State) (T : Namings) : Prop where
  locals : t.locals = s.locals
  enclosing : t.enclosing = s.enclosing
  upvalueCount : t.upvalueCount = s.upvalueCount
  charts : ∀ {g : Ground} {e : List (String × Nat)}, g.Bears n s.scope → s.enclosing = e →
    ∀ τ, Charts F.unit e g [] s.ip s.scope t.ip τ T

theorem Links.departs (h : Links F [] n m s t T) {r : State} (last : Departs F m t r T') :
    Departs F n s r (T ++ T') where
  locals := last.locals.trans h.trades.locals
  enclosing := last.enclosing.trans h.trades.enclosing
  upvalueCount := last.upvalueCount.trans h.trades.upvalueCount
  charts := fun bears same τ =>
    (h.charts bears same).trans (last.charts (h.trades.bears bears) (h.trades.enclosing.trans same) τ)

theorem Puts.departs (puts : Puts F s t .ret n 0) (floor : g.floor + n ≤ s.depth)
    (ascending : Ascending s.locals) (τ : Scope) : Charts F.unit enclosing g exits s.ip s.scope t.ip τ [] := by
  rw [puts.ip]
  have admits : Admits F.unit enclosing g s.scope .ret n 0 none :=
    { ascending, floor := Or.inl (by simp only [State.scope]; omega)
      room := fun _ => Or.inr (by simpa [Opcode.touched, Opcode.operands, State.scope] using floor)
      avoids := by rintro ⟨⟩, names := by simp [CodeUnit.Names], live := by simp, nested := by rintro ⟨⟩ }
  exact .one puts.holds admits (by rintro ⟨⟩) trivial (by rintro ⟨⟩) (by rintro ⟨⟩)

/-- The end of a return, with the returned values on top. -/
theorem depart_lays (count : Nat) : Lays s.builder.labels.size (do
    let s ← get
    if s.upvalueCount < s.closed then emit .popClosed (s.closed - s.upvalueCount) 0
    emit .ret count 0) s fun _ t F => Departs F count s t [] := by
  refine Lays.read (Lays.ite (fun more => ?_) fun none' => ?_)
  · refine (emit_lays _ _ _).seq fun _ r _ => (emit_lays .ret count 0).mono fun _ t F last first => ?_
    have depth := first.depth
    simp only [Instruction.stackEffect] at depth
    refine ⟨last.locals.trans first.locals, last.enclosing.trans first.enclosing,
      last.upvalueCount.trans first.upvalueCount, fun {g e} bears same τ => ?_⟩
    have floor : g.floor + count ≤ s.depth := bears.floor
    exact (first.frees (Or.inl rfl) (by omega) bears.ascending).trans
      (last.departs (by omega) (first.locals ▸ bears.ascending) τ)
  · exact (emit_lays .ret count 0).mono fun _ t F last =>
      ⟨last.locals, last.enclosing, last.upvalueCount,
        fun bears _ τ => last.departs bears.floor bears.ascending τ⟩

theorem returnCode_works {values : Compiler Unit} {count : Nat} {T : List String → Namings}
    (hvalues : Works 0 values count T) (line line' : Nat) : Works 0 (leaving do
      setLine line
      values
      setLine line'
      let s ← get
      if s.upvalueCount < s.closed then emit .popClosed (s.closed - s.upvalueCount) 0
      emit .ret count 0) 0 T := by
  intro s
  have action : Lays s.builder.labels.size (do
      setLine line
      values
      setLine line'
      let s ← get
      if s.upvalueCount < s.closed then emit .popClosed (s.closed - s.upvalueCount) 0
      emit .ret count 0) s fun _ t F => Departs F 0 s t (T s.sees) := by
    refine Lays.line ((hvalues _).seq fun _ r _ => Lays.line ((depart_lays count).mono fun _ t F last links => ?_))
    have last : Departs F count r t [] := ⟨last.locals, last.enclosing, last.upvalueCount, last.charts⟩
    have all := links.departs last
    refine ⟨all.locals, all.enclosing, all.upvalueCount, fun bears same τ => ?_⟩
    exact (all.charts bears same τ).as (List.append_nil _)
  refine Lays.read (action.seq fun _ t _ => Lays.turn rfl ⟨rfl, rfl⟩ fun F departs => ?_)
  exact ⟨⟨departs.locals, departs.enclosing, departs.upvalueCount, rfl, rfl⟩,
    fun bears same => departs.charts bears same _⟩

/-- The iterator is called for so many values, and gives one at least. -/
theorem iterate_works (n : Nat) : ∃ m, n ≤ m ∧ Works 3 (emit .call 2 n) m quiet := by
  by_cases none' : n = 0
  · subst none'
    exact ⟨1, by omega, emit_works rfl (by simp [Opcode.touched, Opcode.operands])
      (by simp [Instruction.stackEffect])⟩
  · exact ⟨n, Nat.le_refl n, emit_works rfl (by simp [Opcode.touched, Opcode.operands])
      (by simp only [Instruction.stackEffect, if_neg none']; omega)⟩

theorem Puts.places {op : Opcode} {a b l : Nat} (puts : Puts F s t op a b) : Puts F s (t.placed l) op a b :=
  ⟨puts.locals, puts.enclosing, puts.upvalueCount, puts.depth, puts.closed, puts.ip, puts.holds⟩

/-- One iteration of a generic loop, whose control slots are on top at `p`, up to the test whether it is
the last: the names have their values at `b`, and the control slot `last` is written. -/
theorem genericHead_charts {names : List String} {p c b d e f h : State} {last : Nat}
    (call : Links F [] 0 n p c []) (enough : names.length ≤ n) (binds : Declares names F c b)
    (value : Links F [] 0 1 b d []) (store : Puts F d e .putStack (d.depth - last) 0)
    (test : Links F [] 0 1 e f []) (go : Links F exits 1 0 f h []) (room : last < p.depth) :
    Spans F [] p b (names.reverse ++ p.sees) [(.declare names, p.sees)] ∧ Trades 0 0 b h ∧ ∀ {g : Ground} {enclosing : List (String × Nat)}, g.Bears 0 p.scope →
      g.floor ≤ last → p.enclosing = enclosing →
        Charts F.unit enclosing g exits p.ip p.scope h.ip h.scope [(.declare names, p.sees)] := by
  have iterates := binds.spans call enough
  have stored : Trades 0 0 b e := value.trades.trans (store.put_trades 0)
  have tested := test.any.trans go
  refine ⟨iterates, stored.trans tested.trades, fun {g enclosing} bears floor same => ?_⟩
  have bearsB := iterates.bears bears
  have sameB := iterates.enclosing.trans same
  have deeper : p.depth ≤ b.depth := iterates.around.depth
  have deep := value.trades.depth
  have avoids (x : Nat) (hidden : x ∈ g.hidden) : x + (d.depth - last) ≠ d.depth := by
    have := g.below x hidden
    omega
  have unnamed : F.unit.Names enclosing d.scope .putStack (d.depth - last) none := by simp [CodeUnit.Names]
  have writes : Charts F.unit enclosing g exits d.ip d.scope e.ip e.scope [] :=
    store.store (value.trades.bears bearsB) avoids unnamed trivial
  exact (iterates.charts bears same).none.quietly ((value.charts bearsB sameB).none.trans
    (writes.trans (tested.charts (stored.bears bearsB) (stored.enclosing.trans sameB))))

/-- A generic loop from its parts: its body is the code from `i` to `j`. -/
theorem genericLoop_links {names : List String} {around : Scope} {exit : Nat} {p b h i j l r t' : State} {last : Nat}
    {V : List String → List String} {B : List String → Namings}
    (head : ∀ exits, (i.ip, h.scope) ∈ exits →
      Spans F [] p b (names.reverse ++ p.sees) [(.declare names, p.sees)] ∧ Trades 0 0 b h ∧
      ∀ {g : Ground} {enclosing : List (String × Nat)}, g.Bears 0 p.scope → g.floor ≤ last →
        p.enclosing = enclosing →
          Charts F.unit enclosing g exits p.ip p.scope h.ip h.scope [(.declare names, p.sees)])
    (leave : ∀ exits, p.scope.Around h.scope → (r.ip, p.scope) ∈ exits → Links F exits 0 0 h i [])
    (leaves : F.Places exit r.ip)
    (body : ∀ exits, Bound F (some ⟨exit, p.scope⟩) i exits → Spans F exits i j (V i.sees) (B i.sees))
    (release : Closing p.scope F j l) (again : Puts F l r .jmp p.ip 0) (closing : Closing around F r t')
    (locals : around.locals = p.locals) (depth : around.depth + 3 = p.depth)
    (closed : around.closed = p.closed) (top : last + 1 = p.depth) :
    Links F [] 3 0 p t' ((Naming.declare names, p.sees) :: B (names.reverse ++ p.sees)) := by
  -- the exits: the beginning of the loop and its end, and in the head also the beginning of the body
  let exits := [(p.ip, p.scope), (r.ip, p.scope)]
  obtain ⟨iterates, tested, headCharts⟩ := head ((i.ip, h.scope) :: exits) List.mem_cons_self
  have ends : (r.ip, p.scope) ∈ exits := List.mem_cons_of_mem _ List.mem_cons_self
  have aroundH : p.scope.Around h.scope := tested.scope ▸ iterates.around
  have leave := leave exits aroundH ends
  have aroundI : p.scope.Around i.scope := leave.trades.scope ▸ aroundH
  have body := body exits (.own leaves aroundI ends)
  have aroundJ := aroundI.trans body.around
  obtain ⟨scopeL, enclosingL, upvalueCountL⟩ := release.scope aroundJ
  have back : Trades 0 0 l r := again.trades rfl rfl
  have scopeR : r.scope = p.scope := back.scope.trans scopeL
  have depthR : r.depth = p.depth := congrArg Scope.depth scopeR
  have outside : around.Around r.scope := by
    rw [scopeR]
    exact .of_locals locals (by simp only [State.scope]; omega) (Nat.le_of_eq closed)
  obtain ⟨scope, enclosing, upvalueCount⟩ := closing.scope outside
  have enclosingH := tested.enclosing.trans iterates.enclosing
  have enclosingI := leave.trades.enclosing.trans enclosingH
  have enclosingJ := body.enclosing.trans enclosingI
  have deep : t'.depth = around.depth := congrArg Scope.depth scope
  refine ⟨⟨(congrArg Scope.locals scope).trans locals,
    enclosing.trans (back.enclosing.trans (enclosingL.trans enclosingJ)),
    upvalueCount.trans (back.upvalueCount.trans (upvalueCountL.trans (body.upvalueCount.trans
      (leave.trades.upvalueCount.trans (tested.upvalueCount.trans iterates.upvalueCount))))), by omega,
    (congrArg Scope.closed scope).trans closed⟩, fun {g e} bears same => ?_⟩
  have floor : g.floor + 3 ≤ p.depth := bears.floor
  have bears₀ := bears.fewer (Nat.zero_le 3)
  have bearsI : g.Bears 0 i.scope := leave.trades.bears (tested.bears (iterates.bears bears₀))
  have sees : i.sees = names.reverse ++ p.sees := (leave.trades.sees.trans tested.sees).trans iterates.sees
  have left : Charts F.unit e g exits h.ip h.scope i.ip i.scope [] :=
    leave.charts (tested.bears (iterates.bears bears₀)) (enclosingH.trans same)
  have into : Charts F.unit e g exits p.ip p.scope i.ip i.scope [(.declare names, p.sees)] := by
    refine ((headCharts bears₀ (by omega) same).quietly
      (left.weaken fun _ => List.mem_cons_of_mem _)).discharge fun x ρ mem => ?_
    rcases List.mem_cons.1 mem with here | mem
    · cases here
      exact Or.inr (Or.inr ⟨rfl, leave.trades.narrows⟩)
    · exact Or.inl mem
  have through : Charts F.unit e g exits i.ip i.scope r.ip r.scope (B i.sees) := by
    have jump : Links F exits 0 0 l r [] := again.jmp List.mem_cons_self (scopeR ▸ .refl _) 0
    exact (body.charts bearsI (enclosingI.trans same)).quietly ((release.charts aroundJ (body.bears bearsI)).trans
      (jump.charts (scopeL ▸ bears₀) (enclosingL.trans (enclosingJ.trans same))))
  have loop : Charts F.unit e g [] p.ip p.scope r.ip r.scope ([(.declare names, p.sees)] ++ B i.sees) := by
    refine (into.trans through).discharge fun x ρ mem => Or.inr ?_
    rcases List.mem_cons.1 mem with here | mem
    · cases here
      exact Or.inl ⟨rfl, .refl _⟩
    · cases List.mem_singleton.1 mem
      exact Or.inr ⟨rfl, scopeR ▸ .refl _⟩
  exact (loop.quietly (closing.charts outside (scopeR ▸ bears))).as (by rw [sees]; rfl)

/-- The code of a generic loop after its control values. -/
theorem genericLoop_lays (names : List String) {body : Option LoopExit → Compiler Unit}
    {V : List String → List String} {B : List String → Namings} (bodies : ∀ exit, Settles exit (body exit) V B)
    (around : Scope) {iterator state last : Nat} (control : Scope) :
    Lays s.builder.labels.size (do
      let top ← newLabel
      let run ← newLabel
      let exit ← newLabel
      placeLabel top
      getSlot iterator
      getSlot state
      getSlot last
      emit .call 2 names.length
      bindLocals names
      let first := (← get).depth - names.length
      getSlot first
      putSlot last
      getSlot first
      loadConstant .nil
      emit .eq 0 0
      emit .not 0 0
      emitJump .jmpTrue false run
      jumpOut control exit
      placeLabel run
      body (some ⟨exit, control⟩)
      closeScope control
      emitJump .jmp false top
      placeLabel exit
      closeScope around) s fun _ t F => control = s.scope → last + 1 = s.depth →
        around.locals = s.locals → around.depth + 3 = s.depth → around.closed = s.closed →
          Links F [] 3 0 s t ((Naming.declare names, s.sees) :: B (names.reverse ++ s.sees)) := by
  refine Lays.label (Lays.label (Lays.label ?_))
  have first : s.labelled.builder.labels.size = s.builder.labels.size + 1 := size_labelled s
  have second : s.labelled.labelled.builder.labels.size = s.builder.labels.size + 2 := by
    rw [size_labelled, first]
  refine Lays.place (Nat.le_refl _) (awaits_labelled s).labelled.labelled ?_
  have run := (awaits_labelled s.labelled).labelled.placed (j := s.builder.labels.size) (by omega)
  have exit := (awaits_labelled s.labelled.labelled).placed (j := s.builder.labels.size) (by omega)
  have whole {F : Whole} {t : State} {T : Namings}
      (h : Links F [] 3 0 (s.labelled.labelled.labelled.placed s.builder.labels.size) t T) :
      Links F [] 3 0 s t T := h.placed.labelled.labelled.labelled
  have same : (s.labelled.labelled.labelled.placed s.builder.labels.size).scope = s.scope ∧
      (s.labelled.labelled.labelled.placed s.builder.labels.size).ip = s.ip ∧
      (s.labelled.labelled.labelled.placed s.builder.labels.size).sees = s.sees := by simp
  generalize s.labelled.labelled.labelled.placed s.builder.labels.size = p at run exit whole same ⊢
  obtain ⟨m, enough, calls⟩ := iterate_works names.length
  refine (getSlot_works 0 _ _).seq fun _ s₁ g₁ => (getSlot_works 1 _ _).seq fun _ s₂ g₂ =>
    (getSlot_works 2 _ _).seq fun _ s₃ g₃ => (calls _).seq fun _ c g₄ => (bindLocals_lays names).seq
    fun _ b g₅ => Lays.read ((getSlot_works 0 _ _).seq fun _ d g₆ => (Lays.read (emit_lays .putStack
    (d.depth - last) 0)).seq fun _ e g₇ => (getSlot_works 0 _ _).seq fun _ f₁ g₈ =>
    (loadConstant_works 1 .nil _).seq fun _ f₂ g₉ => (emit_pair .eq rfl rfl rfl 0 _).seq fun _ f₃ g₁₀ =>
    (negate_works 0 _).seq fun _ f g₁₁ => (emitJump_lays rfl false _).seq fun _ h g₁₂ =>
    (jumpOut_lays _ _).seq fun _ i g₁₃ => ?_)
  have run := ((((((((((((run.grown g₁).grown g₂).grown g₃).grown g₄).grown g₅).grown g₆).grown g₇).grown
    g₈).grown g₉).grown g₁₀).grown g₁₁).grown g₁₂).grown g₁₃
  have exit := ((((((((((((exit.grown g₁).grown g₂).grown g₃).grown g₄).grown g₅).grown g₆).grown g₇).grown
    g₈).grown g₉).grown g₁₀).grown g₁₁).grown g₁₂).grown g₁₃
  refine Lays.place (by omega) run ((bodies _ _).seq fun _ j g₁₄ => (closeScope_lays _).seq fun _ l g₁₅ =>
    (emitJump_lays rfl false _).seq fun _ r g₁₆ => ?_)
  refine Lays.place (by omega) ((((exit.placed (by omega)).grown g₁₄).grown g₁₅).grown g₁₆)
    ((closeScope_lays _).mono fun _ t F => ?_)
  rintro closing leaves ⟨_, place, again⟩ release body here ⟨_, place', leave⟩ ⟨_, place'', go⟩ negate compare
    nil first' store value binds call last' state' iterator' start same' top locals depth closed
  obtain rfl : control = p.scope := same'.trans same.1.symm
  obtain rfl := place'.unique leaves
  obtain rfl := place''.unique here
  obtain rfl := place.unique (same.2.1 ▸ start)
  have deep : s.depth = p.depth := congrArg Scope.depth same.1.symm
  have called := iterator'.trans (state'.trans (last'.trans call))
  have test := first'.trans (nil.trans (compare.trans negate))
  rw [← same.2.2]
  refine whole (genericLoop_links (b := b) (i := i.placed _) (r := r.placed _) (fun exits mem => ?_)
    (fun exits around mem => (leave exits around mem).places) leaves body release again.places closing
    (locals.trans (congrArg Scope.locals same.1).symm) (depth.trans deep)
    (closed.trans (congrArg Scope.closed same.1).symm) (top.trans deep))
  exact genericHead_charts called enough binds value store test (go.jmpTrue mem (.refl _) 0) (by omega)

theorem genericForCode_works (names : List String) {values : Compiler Unit}
    {body : Option LoopExit → Compiler Unit} {V : List String → List String} {A B : List String → Namings}
    (hvalues : Works 0 values 3 A) (bodies : ∀ exit, Settles exit (body exit) V B) :
    Works 0 (genericForCode names values body) 0 fun visible =>
      A visible ++ (Naming.declare names, visible) :: B (names.reverse ++ visible) := fun s =>
  Lays.read ((hvalues s).seq fun _ r _ => Lays.read ((genericLoop_lays names bodies _ _).mono
    fun _ t F loop links => by
      have depth : r.depth + 0 = s.depth + 3 := links.trades.depth
      exact (links.trans (loop rfl (by show r.depth - 1 + 1 = r.depth; omega) links.trades.locals.symm depth.symm
        links.trades.closed.symm)).as (by rw [links.trades.sees])))

/-! ## Assignments -/

theorem placesNamings_entry {target : Expr} (other : ∀ name line, target ≠ .name name line) (names : List String)
    (rest : List Expr) : placesNamings names (target :: rest) = target.namings names ++ placesNamings names rest := by
  cases target with
  | name name line => exact absurd rfl (other name line)
  | _ => rfl

theorem targetNames_entry {target : Expr} (other : ∀ name line, target ≠ .name name line) (rest : List Expr) :
    targetNames (target :: rest) = targetNames rest := by
  cases target with
  | name name line => exact absurd rfl (other name line)
  | _ => rfl

/-- The name of the variable that is assigned to. -/
def Place.name? : Place → Option String
  | .variable name => some name
  | .entry _ => none

/-- Variables are accessed in this order. -/
def accesses (accessed : List String) : List String → Namings := fun names =>
  accessed.map fun name => (.access name, names)

theorem store_works (n : Nat) (place : Place) : Works (n + 1) (store place) n (accesses place.name?.toList) := by
  cases place with
  | «variable» name => exact writeVar_works n name
  | entry slot =>
    exact (getSlot_works (n + 1) slot).seq ((getSlot_works (n + 2) (slot + 1)).seq
      ((emit_copy (n + 3) 3).seq ((putTable_works (n + 1)).seq (pop_works n 1))))

theorem stores_works (n : Nat) : ∀ places : List Place,
    Works (n + places.length) (places.forM store) n (accesses (places.filterMap Place.name?))
  | [] => .nothing n _
  | place :: rest => ((store_works (n + rest.length) place).seq (stores_works n rest)).as fun names => by
      cases place <;> rfl

/-- The targets' tables and keys stay on the stack, and there is a place for every target. -/
def Points (c : Compiler (List Place)) (targets : List Expr) : Prop :=
  ∀ n s, Lays s.builder.labels.size c s fun places t F =>
    places.length = targets.length ∧ places.filterMap Place.name? = targetNames targets ∧
      ∃ m, Links F [] n (n + m) s t (placesNamings s.sees targets)

theorem assign_works {targets : List Expr} {places : Compiler (List Place)} {values : Compiler Unit}
    {T : List String → Namings} (htargets : Points places targets)
    (hvalues : ∀ n, Works n values (n + targets.length) T) : Works 0 (do
      let start := (← get).depth
      let places ← places
      let temporaries := (← get).depth - start
      values
      places.reverse.forM store
      pop temporaries) 0 fun names =>
        placesNamings names targets ++ T names ++ accesses (targetNames targets).reverse names := by
  intro s
  refine Lays.read ((htargets 0 s).seq fun places r _ => Lays.read ?_)
  -- the number of temporaries, which the compiler reads off the depths
  let m := r.depth - s.depth
  have drop : Works (0 + m) (pop m) 0 quiet := pop_works 0 m
  refine (hvalues m r).seq fun _ q _ => (stores_works m places.reverse q).seq fun _ e _ => (drop e).mono
    fun _ t F drop stores values => ?_
  rintro ⟨length, names, m', aims⟩
  have depth := aims.trades.depth
  have same : 0 + m' = m := by omega
  rw [List.length_reverse, length] at stores
  rw [same] at aims
  rw [Nat.zero_add] at drop
  have before := aims.trans values
  refine (before.trans (stores.trans drop)).as ?_
  rw [before.trades.sees, aims.trades.sees, List.append_nil, List.filterMap_reverse, names]

/-! ## Functions -/

/-- What a function starts with: the slot of its arguments, which no region needs. -/
theorem functionBody_lays {params : List String} {body : Compiler Unit} {V : List String → List String}
    {B : List String → Namings} (statements : Settles none body V B) :
    Lays s.builder.labels.size (do
      if !params.isEmpty then
        emit .popVarArgs params.length 0
        bindLocals params
      body
      emit .ret 0 0) s fun _ t F => ∀ {g : Ground} {e : List (String × Nat)}, g.Bears 1 s.scope →
        s.enclosing = e → ∀ τ, Charts F.unit e g [] s.ip s.scope t.ip τ
          ((if params.isEmpty then [] else [(Naming.declare params, s.sees)]) ++ B (params.reverse ++ s.sees)) := by
  have ends (q : State) : Lays q.builder.labels.size (do body; emit .ret 0 0) q fun _ t F =>
      ∀ {g : Ground} {e : List (String × Nat)}, g.Bears 0 q.scope → q.enclosing = e →
        ∀ τ, Charts F.unit e g [] q.ip q.scope t.ip τ (B q.sees) := by
    refine (statements q).seq fun _ r _ => (emit_lays .ret 0 0).mono fun _ t F last spans => ?_
    have spans := spans [] (by simp [Bound])
    intro g e bears same τ
    have bears' := spans.bears bears
    exact (spans.charts bears same).quietly (last.departs bears'.floor bears'.ascending τ)
  have arguments : Works 1 (emit .popVarArgs params.length 0) (params.length + 1) quiet :=
    emit_works rfl (by simp [Opcode.touched]) (by simp only [Instruction.stackEffect]; omega)
  refine Lays.ite (fun some' => ?_) fun none' => (ends s).mono fun _ t F ends _ _ bears same τ => ?_
  · have some' : params.isEmpty = false := by simpa using some'
    refine (arguments s).seq fun _ q _ => (bindLocals_lays params).seq fun _ r _ => (ends r).mono
      fun _ t F ends binds links g e bears same τ => ?_
    have bears' : g.Bears params.length q.scope := (links.trades.bears bears).fewer (Nat.le_succ _)
    have sameQ := links.trades.enclosing.trans same
    refine ((links.charts bears same).trans ((binds.charts bears' sameQ).trans
      (ends (binds.bears bears') (binds.enclosing.trans sameQ) τ))).as ?_
    rw [binds.sees, links.trades.sees, if_neg (by simp [some'])]
    rfl
  · have none' : params.isEmpty = true := by simpa using none'
    refine (ends (bears.fewer (Nat.zero_le 1)) same τ).as ?_
    rw [if_pos none', List.isEmpty_iff.1 none']
    rfl

/-- The code of a whole unit can be charted, and so the unit has a chart. -/
theorem charted_of_charts {u : CodeUnit} {upvalues : Nat} {τ : Scope}
    (charts : Charts u enclosing g [] 0 ⟨[], 1, upvalues⟩ u.code.size τ T) : Charted enclosing upvalues u T := by
  obtain ⟨notes, survey⟩ := charts
  have length : u.code.size = notes.length := survey.size.trans (Nat.zero_add _)
  -- behind the last note the chart goes on with the scope at the end
  let C : Chart := fun ip => notes.getD ip ⟨τ, [], none⟩
  have noted : Noted C 0 notes := fun n x found => by simp [C, found]
  have last : (C u.code.size).scope.Narrows τ := by
    have : C u.code.size = ⟨τ, [], none⟩ := by simp [C, length]
    rw [this]
    exact .refl τ
  have inside {ip a b : Nat} {op : Opcode} (holds : u.Holds ip op a b) : ip < u.code.size := by
    obtain ⟨ins, found, -⟩ := holds
    exact (Array.getElem?_eq_some_iff.1 found).1
  have all : C.namings enclosing u = T := by
    have same : (List.range u.code.size).map C = notes := by
      refine List.ext_getElem (by simp [length]) fun i low low' => ?_
      simp [C, low']
    rw [Chart.namings, same, survey.names]
  rw [← all]
  refine .intro C ⟨survey.enters noted last, fun ip op a b holds => ?_⟩ fun ip a b c f holds found naming => ?_
  · refine survey.sound C noted last (fun _ _ mem => absurd mem List.not_mem_nil) ip op a b (Nat.zero_le ip)
      (inside holds) holds
  · have low : ip < notes.length := by have := inside holds; omega
    obtain ⟨c', f', found', naming', charted⟩ := survey.nested ip _ (List.getElem?_eq_getElem low) a b
      (by rw [Nat.zero_add]; exact holds)
    have here : C ip = notes[ip] := by simp [C, low]
    rw [found] at found'
    cases found'
    rw [here, naming'] at naming
    cases naming
    rw [here]
    exact charted

/-- The ground of a whole unit. -/
def Ground.whole : Ground := ⟨0, [], by simp⟩

/-- A finished unit has as much code as its builder. -/
theorem Whole.size_eq (F : Whole) : F.unit.code.size = F.builder.code.size := by
  have code := F.linked.code
  refine Nat.le_antisymm ?_ ?_
  · have none' := code F.builder.code.size
    rw [Array.getElem?_eq_none (Nat.le_refl _), Option.map_none] at none'
    exact Array.getElem?_eq_none_iff.1 none'
  · have none' := code F.unit.code.size
    rw [Array.getElem?_eq_none (Nat.le_refl _), eq_comm, Option.map_eq_none_iff] at none'
    exact Array.getElem?_eq_none_iff.1 none'

/-- The unit of a function body has a chart. -/
theorem charted_of_body {params : List String} {body : Compiler Unit} {V : List String → List String}
    {B : List String → Namings} (statements : Settles none body V B)
    {start t : State} {u : CodeUnit} {source name : String} {id : Nat}
    (empty : start.builder.code = #[] ∧ start.builder.labels = #[] ∧ start.builder.pending = #[] ∧
      start.builder.children = [])
    (first : start.locals = [] ∧ start.depth = 1)
    (ran : (do
      if !params.isEmpty then
        emit .popVarArgs params.length 0
        bindLocals params
      body
      emit .ret 0 0 : Compiler Unit).run start = .ok ((), t))
    (finished : t.builder.finish id name source = .ok u) :
    Charted start.enclosing start.closed u ((if params.isEmpty then [] else [(Naming.declare params, start.sees)]) ++
      B (params.reverse ++ start.sees)) ∧ t.id = start.id ∧ start.nextId ≤ t.nextId := by
  obtain ⟨noCode, noLabels, noJumps, noChildren⟩ := empty
  obtain ⟨noLocals, depth⟩ := first
  have sound : start.Sound := ⟨by simp [noJumps], by simp [noLabels], by simp [noChildren]⟩
  obtain ⟨grown, charts⟩ := (functionBody_lays statements sound (Nat.le_refl _)).ok ran
  obtain ⟨F, builder, rfl⟩ := whole_of_finish finished grown.sound.places
  have scope : start.scope = ⟨[], 1, start.closed⟩ := by rw [State.scope, noLocals, depth]
  have ip : start.ip = 0 := by rw [State.ip, noCode]; rfl
  have bears : Ground.whole.Bears 1 start.scope := by
    rw [scope]
    exact ⟨Nat.le_refl 1, by simp, by simp, .nil, by simp⟩
  have charts := charts F (builder ▸ .refl 0 _) bears rfl start.scope
  rw [scope, ip, State.ip, ← builder, ← F.size_eq] at charts
  exact ⟨charted_of_charts charts, grown.ids⟩

/-- A nested function sees what is visible around it. -/
theorem sees_child (s : State) (name : String) (id line paramCount : Nat) (isVararg : Bool) :
    (s.child name id line paramCount isVararg).sees = s.sees := by
  simp [State.sees, Scope.visible, State.scope, State.child, Function.comp_def]

/-- A function's unit has a chart in which it sees the names around it, and is closed over at once. -/
theorem function_works (params : List String) (isVararg : Bool) {body : Block} (line : Nat) (name : String)
    {V : List String → List String} (statements : Settles none (compileStatements none body) V (body.namings ·))
    (n : Nat) : Works n (compileFunction ⟨params, isVararg, body, line⟩ name) (n + 1) fun names =>
      [(.nested ⟨params, isVararg, body, line⟩, names)] := by
  intro s sound low
  unfold compileFunction
  refine Leads.bind (Leads.get (Leads.ite (fun _ => Leads.bind (Leads.throw trivial)) fun _ =>
    Leads.ite (fun _ => Leads.bind (Leads.throw trivial)) fun _ => ?_))
  refine Leads.bind (Leads.lift ?_ fun _ _ => trivial)
  rintro ⟨⟨⟩, child⟩ ran
  refine Leads.bind (Leads.lift (fun u finished => Leads.bind (Leads.set ?_)) fun _ _ => trivial)
  obtain ⟨charted, ids, next⟩ := charted_of_body statements ⟨rfl, rfl, rfl, rfl⟩ ⟨rfl, rfl⟩ ran finished
  rw [sees_child] at charted
  have charted : Charted (s.scope.names s.enclosing) s.closed u
      (FunctionBody.namings s.sees ⟨params, isVararg, body, line⟩) := charted
  have id : u.id = s.nextId := (Builder.finish_eq_ok finished).2.2.2.1.trans ids
  have next : s.nextId + 1 ≤ child.nextId := next
  have smaller : ∀ c ∈ s.builder.children, c.id < u.id := id ▸ sound.children
  obtain ⟨precedes, found⟩ := precedes_addChild smaller s.builder.labels.size
  have added : (s.builder.addChild u).children = u :: s.builder.children := Builder.insertChild_greatest smaller
  have grown : Grown s.builder.labels.size s { s with nextId := child.nextId, builder := s.builder.addChild u } := by
    refine ⟨precedes, ⟨sound.pending, sound.places, fun c mem => ?_⟩, rfl, Nat.le_of_succ_le next⟩
    rcases List.mem_cons.1 (added ▸ mem) with rfl | mem
    · simp only
      omega
    · have := sound.children c mem
      simp only
      omega
  refine (emit_lays .closure s.nextId 0 grown.sound (Nat.le_refl _)).mono fun _ t => ?_
  rintro ⟨grown', puts⟩
  refine ⟨grown.trans grown', fun F within => ?_⟩
  have puts := puts F within
  have child? : F.unit.child? s.nextId = some u := id ▸ F.child_of_precedes (grown'.within within) found
  have depth : (t.depth : Int) = s.depth + 1 := puts.depth
  have closed : (t.closed : Int) = s.closed + 0 := puts.closed
  refine ⟨⟨puts.locals, puts.enclosing, puts.upvalueCount, by omega, by omega⟩, fun {g e} bears same => ?_⟩
  subst same
  have floor := bears.floor
  have admits : Admits F.unit s.enclosing g s.scope .closure s.nextId 0
      (some (.nested ⟨params, isVararg, body, line⟩)) :=
    { ascending := bears.ascending, floor := Or.inl (by omega), room := fun _ => Or.inl rfl, avoids := by rintro ⟨⟩
      names := rfl, live := fun _ l mem => bears.live mem, nested := fun _ => ⟨u, _, child?, rfl, charted⟩ }
  rw [puts.ip]
  exact .one puts.holds admits
    (fun _ => bears.passes (Nat.zero_le n) (by rintro ⟨⟩) puts.locals puts.depth puts.closed) trivial (by rintro ⟨⟩) (by rintro ⟨⟩)

/-! ## The induction -/

theorem Works.adjusted {c : Compiler Unit} {T : List String → Namings} (h : Works n c (n + 1) T) (line : Nat)
    (arity : Arity) : Works n (do setLine line; c; adjustSingle arity) (n + arity.slots) T :=
  .line (h.quietly (adjustSingle_works n arity))

theorem bindLocals_settles {values : Compiler Unit} {names : List String} {T : List String → Namings}
    (hvalues : Works 0 values n T) (enough : names.length ≤ n) : Settles exit (do values; bindLocals names)
      (names.reverse ++ ·) fun visible => T visible ++ [(Naming.declare names, visible)] := fun s =>
  (hvalues s).seq fun _ _ _ => (bindLocals_lays names).mono fun _ _ _ binds links _ _ =>
    binds.spans links.any enough

theorem break_settles (e : LoopExit) : Settles (some e) (jumpOut e.scope e.label) id quiet := fun s =>
  (jumpOut_lays e.scope e.label).mono fun _ t F ⟨address, places, links⟩ exits bound => by
    obtain ⟨around, exit⟩ := bound e rfl
    exact (links exits around (exit address places)).spans

theorem readPath_works (n : Nat) (root : String) (fields : List String) :
    Works n (readPath root fields) (n + 1) fun names => [(.access root, names)] := by
  refine (readVar_works n root).quietly ?_
  induction fields with
  | nil => exact .nothing _ _
  | cons field rest ih =>
    exact ((loadConstant_works (n + 1) _).seq (emit_pair .getTable rfl rfl rfl n)).seq ih

mutual
theorem compileExpr_works : ∀ (e : Expr) (arity : Arity) (n : Nat),
    Works n (compileExpr e arity) (n + arity.slots) (e.namings ·)
  | .nil line, arity, n => by
    rw [compileExpr]
    exact ((loadConstant_works n _).adjusted line arity).as fun _ => by simp [Expr.namings]
  | .boolean b line, arity, n => by
    rw [compileExpr]
    exact ((loadConstant_works n _).adjusted line arity).as fun _ => by simp [Expr.namings]
  | .number x line, arity, n => by
    rw [compileExpr]
    exact ((loadConstant_works n _).adjusted line arity).as fun _ => by simp [Expr.namings]
  | .string s line, arity, n => by
    rw [compileExpr]
    exact ((loadConstant_works n _).adjusted line arity).as fun _ => by simp [Expr.namings]
  | .varargs line, arity, n => by
    rw [compileExpr]
    exact (Works.line (.get fun s => .ite (fun _ => (getSlot_works n 0).seq (adjustMulti_works n arity))
      fun _ => .throw _)).as fun _ => by simp [Expr.namings]
  | .name name line, arity, n => by
    rw [compileExpr]
    exact ((readVar_works n name).adjusted line arity).as fun _ => by simp [Expr.namings]
  | .paren inner line, arity, n => by
    rw [compileExpr]
    exact ((compileExpr_works inner (.fixed 1) n).adjusted line arity).as fun _ => by simp [Expr.namings]
  | .unary op operand line, arity, n => by
    rw [compileExpr]
    have operator : Works (n + 1) (emit (unaryOpcode op) 0 0) (n + 1) quiet := by
      cases op <;> exact emit_single _ rfl rfl rfl n
    exact (Works.line ((compileExpr_works operand (.fixed 1) n).quietly
      (operator.seq (adjustSingle_works n arity)))).as fun _ => by simp [Expr.namings]
  | .binary op lhs rhs line, arity, n => by
    rw [compileExpr]
    exact ((binary_works op (compileExpr_works lhs (.fixed 1)) (compileExpr_works rhs (.fixed 1)) n).adjusted
      line arity).as fun _ => by simp [Expr.namings]
  | .index table key line, arity, n => by
    rw [compileExpr]
    exact (Works.line ((compileExpr_works table (.fixed 1) n).seq ((compileExpr_works key (.fixed 1) (n + 1)).quietly
      ((emit_pair .getTable rfl rfl rfl n).seq (adjustSingle_works n arity))))).as fun _ => by simp [Expr.namings]
  | .field table name line, arity, n => by
    rw [compileExpr]
    exact (Works.line ((compileExpr_works table (.fixed 1) n).quietly ((loadConstant_works (n + 1) _).seq
      ((emit_pair .getTable rfl rfl rfl n).seq (adjustSingle_works n arity))))).as fun _ => by simp [Expr.namings]
  | .call callee args line, arity, n => by
    rw [compileExpr]
    have arguments := compileMultiList_works args (n + 1)
    rw [Nat.add_assoc, Nat.add_comm 1] at arguments
    exact (Works.line ((compileExpr_works callee (.fixed 1) n).seq (arguments.quietly
      (Works.line (finishCall_works n args.length arity))))).as fun _ => by simp [Expr.namings]
  | .methodCall object method args line, arity, n => by
    rw [compileExpr]
    have arguments := compileMultiList_works args (n + 2)
    have finish := finishCall_works n (args.length + 1) arity
    rw [Nat.add_assoc, Nat.add_comm 2] at arguments
    have put (m : Nat) : Works (m + 1 + 1 + 1) (emit .putStack 3 0) (m + 1 + 1) quiet :=
      putTemporary_works (by omega)
    exact (Works.line ((compileExpr_works object (.fixed 1) n).seq ((emit_copy (n + 1) 1).seq
      ((loadConstant_works (n + 2) _).seq ((emit_pair .getTable rfl rfl rfl (n + 1)).seq
      ((emit_copy (n + 2) 1).seq ((emit_copy (n + 3) 3).seq ((put (n + 1)).seq ((put n).seq
      (arguments.quietly (Works.line finish))))))))))).as fun _ => by simp [Expr.namings]
  | .function body, arity, n => by
    rw [compileExpr]
    exact ((compileFunction_works body _ n).adjusted _ arity).as fun _ => by simp [Expr.namings]
  | .table fields line, arity, n => by
    rw [compileExpr]
    have new : Works n (emit .newTable 0 0) (n + 1) quiet :=
      emit_works rfl (Nat.zero_le n) (by simp only [Instruction.stackEffect]; omega)
    exact (Works.line (new.seq ((compileFields_works 1 fields n).quietly (adjustSingle_works n arity)))).as
      fun _ => by simp [Expr.namings]

theorem compileValues_works : ∀ (count : Nat) (es : List Expr) (n : Nat),
    Works n (compileValues count es) (n + count) (exprsNamings · es)
  | count, [], n => by
    rw [compileValues]
    exact (loadNil_works n count).as fun _ => by simp [exprsNamings]
  | count, [e], n => by
    rw [compileValues]
    exact (compileExpr_works e (.fixed count) n).as fun _ => by simp [exprsNamings]
  | count, e :: f :: rest, n => by
    rw [compileValues]
    have others := compileValues_works (count - 1) (f :: rest) (n + min count 1)
    rw [Nat.add_assoc, show min count 1 + (count - 1) = count by omega] at others
    exact ((compileExpr_works e (.fixed (min count 1)) n).seq others).as fun _ => by simp [exprsNamings]

theorem compileMultiList_works : ∀ (es : List Expr) (n : Nat),
    Works n (compileMultiList es) (n + es.length) (exprsNamings · es)
  | [], n => by
    rw [compileMultiList]
    exact (Works.nothing n _).as fun _ => by simp [exprsNamings]
  | [e], n => by
    rw [compileMultiList]
    exact (compileExpr_works e .multi n).as fun _ => by simp [exprsNamings]
  | e :: f :: rest, n => by
    rw [compileMultiList]
    have others := compileMultiList_works (f :: rest) (n + 1)
    rw [Nat.add_assoc, Nat.add_comm 1] at others
    exact ((compileExpr_works e (.fixed 1) n).seq others).as fun _ => by simp [exprsNamings]

theorem compileFields_works : ∀ (position : Nat) (fields : List TableField) (n : Nat),
    Works (n + 1) (compileFields position fields) (n + 1) (fieldsNamings · fields)
  | position, [], n => by
    rw [compileFields]
    exact (Works.nothing _ _).as fun _ => by simp [fieldsNamings]
  | position, .positional value :: rest, n => by
    rw [compileFields]
    have value' : Works (n + 3) (compileExpr value
        (if rest.isEmpty && value.isMulti then .multi else .fixed 1)) (n + 4) (value.namings ·) := by
      split
      · exact compileExpr_works value .multi (n + 3)
      · exact compileExpr_works value (.fixed 1) (n + 3)
    exact ((emit_copy (n + 1) 1).seq ((loadConstant_works (n + 2) _).seq (value'.seq
      ((putTable_works (n + 1)).seq (compileFields_works (position + 1) rest n))))).as
        fun _ => by simp [fieldsNamings]
  | position, .named name value :: rest, n => by
    rw [compileFields]
    exact ((emit_copy (n + 1) 1).seq ((loadConstant_works (n + 2) _).seq
      ((compileExpr_works value (.fixed 1) (n + 3)).seq ((putTable_works (n + 1)).seq
        (compileFields_works position rest n))))).as fun _ => by simp [fieldsNamings]
  | position, .keyed key value :: rest, n => by
    rw [compileFields]
    exact ((emit_copy (n + 1) 1).seq ((compileExpr_works key (.fixed 1) (n + 2)).seq
      ((compileExpr_works value (.fixed 1) (n + 3)).seq ((putTable_works (n + 1)).seq
        (compileFields_works position rest n))))).as fun _ => by simp [fieldsNamings]

theorem compileFunction_works : ∀ (f : FunctionBody) (name : String) (n : Nat),
    Works n (compileFunction f name) (n + 1) fun names => [(.nested f, names)]
  | ⟨params, isVararg, body, line⟩, name, n =>
    function_works params isVararg line name (compileStatements_settles none body) n

theorem compilePlace_works : ∀ (e : Expr) (n : Nat), Works n (compilePlace e) (n + 2) (e.namings ·)
  | .index table key line, n => by
    rw [compilePlace]
    exact ((compileExpr_works table (.fixed 1) n).seq (compileExpr_works key (.fixed 1) (n + 1))).as
      fun _ => by simp [Expr.namings]
  | .field table name line, n => by
    rw [compilePlace]
    exact ((compileExpr_works table (.fixed 1) n).quietly (loadConstant_works (n + 1) _)).as
      fun _ => by simp [Expr.namings]
  | .nil _, _ | .boolean .., _ | .number .., _ | .string .., _ | .varargs _, _ | .name .., _ => .throw _
  | .paren .., _ | .unary .., _ | .binary .., _ | .call .., _ => .throw _
  | .methodCall .., _ | .function _, _ | .table .., _ => .throw _

theorem compileTargets_aims : ∀ es : List Expr, Points (compileTargets es) es
  | [] => fun n s => by
    rw [compileTargets]
    exact Lays.pure fun F => ⟨rfl, rfl, 0, .refl n s⟩
  | target :: rest => by
    have others := compileTargets_aims rest
    have place := compilePlace_works target
    intro n s
    by_cases named : ∃ name line, target = .name name line
    · obtain ⟨name, line, rfl⟩ := named
      rw [compileTargets]
      refine (others n s).seq fun places t _ => Lays.pure fun F => ?_
      rintro ⟨length, names, m, links⟩
      exact ⟨by rw [List.length_cons, List.length_cons, length],
        by simp only [List.filterMap_cons, Place.name?, targetNames, names], m,
        links.as (by rw [placesNamings])⟩
    · have other : ∀ name line, target ≠ .name name line := fun name line same => named ⟨name, line, same⟩
      rw [compileTargets_entry other]
      refine (place n s).seq fun _ r _ => Lays.read ((others (n + 2) r).seq fun places t _ =>
        Lays.pure fun F => ?_)
      rintro ⟨length, names, m, links⟩ first
      refine ⟨by rw [List.length_cons, List.length_cons, length], ?_, 2 + m, ?_⟩
      · rw [targetNames_entry other]
        exact names
      · rw [← Nat.add_assoc, placesNamings_entry other]
        exact first.trans (links.as (by rw [first.trades.sees]))

theorem compileStmt_settles : ∀ (exit : Option LoopExit) (stmt : Stmt),
    Settles exit (compileStmt exit stmt) (stmt.visible ·) (stmt.namings ·)
  | exit, .local names values line => by
    rw [compileStmt]
    have values := compileValues_works names.length values 0
    exact (Settles.line (bindLocals_settles values (by omega))).as (fun _ => rfl) fun _ => by simp [Stmt.namings]
  | exit, .localFunction name body line => by
    rw [compileStmt]
    have function := (compileFunction_works body name 0).seq (writeVar_works 0 name)
    have declared : Settles exit (do loadNil 1; bindLocals [name]) ([name].reverse ++ ·) fun names =>
        quiet names ++ [(Naming.declare [name], names)] := bindLocals_settles (loadNil_works 0 1) (Nat.le_refl 1)
    have whole := declared.seq function.settles
    rw [bind_assoc] at whole
    exact (Settles.line whole).as (fun _ => rfl) fun _ => by simp [Stmt.namings]
  | exit, .assign [] values line => by
    rw [compileStmt_assign (by simp)]
    exact (Settles.line (assign_works (compileTargets_aims []) (compileValues_works _ values)).settles).as
      (fun _ => rfl) fun _ => by simp [Stmt.namings, accesses]
  | exit, .assign (first :: second :: rest) values line => by
    rw [compileStmt_assign (by simp)]
    exact (Settles.line (assign_works (compileTargets_aims (first :: second :: rest))
      (compileValues_works _ values)).settles).as (fun _ => rfl) fun _ => by simp [Stmt.namings, accesses]
  | exit, .assign [target] values line => by
    have place := compilePlace_works target 0
    have values' := compileValues_works 1 values
    by_cases named : ∃ name line, target = .name name line
    · obtain ⟨name, at', rfl⟩ := named
      rw [compileStmt]
      exact (Settles.line ((values' 0).seq (writeVar_works 0 name)).settles).as (fun _ => rfl) fun _ => by
        simp [Stmt.namings, placesNamings, targetNames]
    · have other : ∀ name line, target ≠ .name name line := fun name line same => named ⟨name, line, same⟩
      rw [compileStmt_place other]
      exact (Settles.line (place.seq ((values' 2).quietly (putTable_works 0))).settles).as (fun _ => rfl)
        fun _ => by simp [Stmt.namings, placesNamings_entry other, targetNames_entry other, placesNamings, targetNames]
  | exit, .call call => by
    rw [compileStmt]
    exact (Settles.line (compileExpr_works call (.fixed 0) 0).settles).as (fun _ => rfl)
      fun _ => by simp [Stmt.namings]
  | exit, .block body => by
    rw [compileStmt]
    exact (Settles.line (inScope_settles (compileStatements_settles exit body))).as (fun _ => rfl)
      fun _ => by simp [Stmt.namings]
  | exit, .while cond body line => by
    rw [compileStmt]
    exact (Settles.line (whileCode_works (compileExpr_works cond (.fixed 1) 0) fun exit =>
      compileStatements_settles exit body).settles).as (fun _ => rfl) fun _ => by simp [Stmt.namings]
  | exit, .repeat body cond line => by
    rw [compileStmt]
    exact (Settles.line (repeatCode_works (compileExpr_works cond (.fixed 1) 0) fun exit =>
      compileStatements_settles exit body).settles).as (fun _ => rfl) fun _ => by simp [Stmt.namings]
  | exit, .if clauses none line => by
    rw [compileStmt]
    have nothing (s : State) : Lays s.builder.labels.size (pure ()) s fun _ t F =>
        ∀ exits, Bound F exit s exits → Links F exits 0 0 s t (quiet s.sees) := Lays.pure fun F _ _ => .refl 0 s
    exact (Settles.line (if_settles (compileClauses_chooses exit · _ clauses) nothing)).as (fun _ => rfl)
      fun _ => by simp [Stmt.namings]
  | exit, .if clauses (some body) line => by
    rw [compileStmt]
    exact (Settles.line (if_settles (compileClauses_chooses exit · _ clauses) fun _ =>
      inScope_lays (compileStatements_settles exit body))).as (fun _ => rfl) fun _ => by simp [Stmt.namings]
  | exit, .numericFor var start limit none body line => by
    rw [compileStmt]
    exact (Settles.line (numericForCode_works var (compileExpr_works start (.fixed 1) 0)
      (compileExpr_works limit (.fixed 1) 1) (loadConstant_works 2 _) fun exit =>
        compileStatements_settles exit body).settles).as (fun _ => rfl) fun _ => by simp [Stmt.namings]
  | exit, .numericFor var start limit (some step) body line => by
    rw [compileStmt]
    exact (Settles.line (numericForCode_works var (compileExpr_works start (.fixed 1) 0)
      (compileExpr_works limit (.fixed 1) 1) (compileExpr_works step (.fixed 1) 2) fun exit =>
        compileStatements_settles exit body).settles).as (fun _ => rfl) fun _ => by simp [Stmt.namings]
  | exit, .genericFor names values body line => by
    rw [compileStmt]
    exact (Settles.line (genericForCode_works names (compileValues_works 3 values 0) fun exit =>
      compileStatements_settles exit body).settles).as (fun _ => rfl) fun _ => by simp [Stmt.namings]
  | exit, .function name body line => by
    rw [compileStmt]
    cases path : storePath? name with
    | none =>
      exact (Settles.line ((compileFunction_works body _ 0).seq (writeVar_works 0 _)).settles).as (fun _ => rfl)
        fun _ => by simp [Stmt.namings, path]
    | some r =>
      obtain ⟨fields, key⟩ := r
      exact (Settles.line ((readPath_works 0 _ fields).seq ((loadConstant_works 1 _).seq
        ((compileFunction_works body _ 2).quietly (putTable_works 0)))).settles).as (fun _ => rfl)
          fun _ => by simp [Stmt.namings, path]
  | none, .break line => by
    rw [compileStmt]
    exact Settles.line (.throw _)
  | some e, .break line => by
    rw [compileStmt]
    exact (Settles.line (break_settles e)).as (fun _ => rfl) fun _ => by simp [Stmt.namings]

theorem compileClauses_chooses : ∀ (exit : Option LoopExit) (done : Nat) (more : Bool)
    (clauses : List Clause), Decides exit done (compileClauses exit done more clauses) (clausesNamings · clauses)
  | exit, done, more, [] => fun s => by
    rw [compileClauses]
    refine Lays.pure fun F _ _ _ => ?_
    exact (Links.refl 0 s).as (by simp [clausesNamings])
  | exit, done, more, ⟨cond, body⟩ :: rest => by
    rw [compileClauses]
    have chooses := @clause_chooses exit done (more || !rest.isEmpty) _ _ _ _ _ _ _
      (compileExpr_works cond (.fixed 1) 0) (compileStatements_settles exit body)
      (compileClauses_chooses exit done more rest)
    exact fun s => (chooses s).mono fun _ _ _ links exits bound ends =>
      (links exits bound ends).as (by simp [clausesNamings])

theorem compileStatements_settles : ∀ (exit : Option LoopExit) (body : Block),
    Settles exit (compileStatements exit body) (body.visible ·) (body.namings ·)
  | exit, ⟨stmts, none, line⟩ => by
    rw [compileStatements]
    exact ((compileStmts_settles exit stmts).seq .nothing).as (fun _ => rfl) fun _ => by simp [Block.namings]
  | exit, ⟨stmts, some ⟨values, retLine⟩, line⟩ => by
    rw [compileStatements]
    have values' := compileMultiList_works values 0
    rw [Nat.zero_add] at values'
    exact ((compileStmts_settles exit stmts).seq (returnCode_works values' retLine retLine).settles).as
      (fun _ => rfl) fun _ => by simp [Block.namings]

theorem compileStmts_settles : ∀ (exit : Option LoopExit) (stmts : List Stmt),
    Settles exit (compileStmts exit stmts) (stmts.foldl Stmt.visible ·) (stmtsNamings · stmts)
  | exit, [] => by
    rw [compileStmts]
    exact Settles.nothing.as (fun _ => rfl) fun _ => by simp [stmtsNamings]
  | exit, stmt :: rest => by
    rw [compileStmts]
    exact ((compileStmt_settles exit stmt).seq (compileStmts_settles exit rest)).as (fun _ => rfl)
      fun _ => by simp [stmtsNamings]
end

/-- A compiled chunk has a chart, which starts with no local and no name of a function around it, and so
have all units nested in it; about names their code does what the program does, in the same order. -/
theorem compile_charted {source : String} {body : Block} {u : CodeUnit} (compiled : compile source body = .ok u) :
    Charted [] 0 u (body.namings []) := by
  rw [compile_eq] at compiled
  cases emitted : emitChunk source body with
  | error e => simp [emitted, Bind.bind, Except.bind] at compiled
  | ok v =>
    cases accepted : Verifier.verify v with
    | error e => simp [emitted, accepted, Bind.bind, Except.bind, Except.mapError] at compiled
    | ok _ =>
      simp only [emitted, accepted, Bind.bind, Except.bind, Except.mapError] at compiled
      cases compiled
      unfold emitChunk at emitted
      cases ran : StateT.run (do compileStatements none body; emit .ret 0 0 : Compiler Unit) (.root source) with
      | error e =>
        simp only [ran] at emitted
        cases emitted
      | ok r =>
        obtain ⟨⟨⟩, t⟩ := r
        simp only [ran] at emitted
        exact (charted_of_body (compileStatements_settles none body) ⟨rfl, rfl, rfl, rfl⟩ ⟨rfl, rfl⟩
          (show (do
            if !([] : List String).isEmpty then
              emit .popVarArgs 0 0
              bindLocals []
            compileStatements none body
            emit .ret 0 0 : Compiler Unit).run (.root source) = .ok ((), t) from ran) emitted).1

end ScriptEngine.Compiler
