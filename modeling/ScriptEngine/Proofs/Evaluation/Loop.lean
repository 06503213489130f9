import ScriptEngine.Proofs.Evaluation.Statement

/-!
# What compiled loops do

The code of a loop does what the loop does by an induction on the rounds that the loop runs for: a round
takes the run from the start of the next one, or from the end of the loop, back to its own start. A
numeric loop keeps its numbers in three slots that no name leads to.
-/

set_option linter.dupNamespace false

namespace ScriptEngine

/-- What is needed of a run after a round of a loop: `P` for another round, `K` for the end. -/
def Proceeds {σ α : Type} (P : σ → World → Prop) (K : α → World → Prop) : σ ⊕ α → World → Prop
  | .inl state => P state
  | .inr a => K a

/-- A loop ends as it should if each of its rounds does. -/
theorem Evaluation.Gives.loop {σ α : Type} {round : σ → Evaluation (σ ⊕ α)} {o : Ending}
    {K : α → World → Prop} {P : σ → World → Prop}
    (step : ∀ state w, (round state).Gives w o (Proceeds P K) → P state w) (n : Nat) (state : σ)
    (w : World)
    (gives : (Evaluation.loop round n state).Gives w o K) : P state w := by
  induction n generalizing state w with
  | zero => exact absurd gives id
  | succ n ih =>
    refine step state w (gives.bind.mono fun r w' gives => ?_)
    cases r with
    | inl next => exact ih next w' gives
    | inr a => exact gives

namespace Compiler

variable {F : Finished} {s t : State} {k : Nat} {exit : Option LoopExit} {env : Environment}
  {items : List Item} {w : World} {o : Ending}

/-- Code of the unit that runs in a scope of its own, for a loop whose state is `state`. -/
theorem Encloses.round {σ : Type} {r : State} {x : Environment → Evaluation Exit} {l : Nat}
    {P : σ → World → Prop} (h : Encloses F (some ⟨l, s.scope⟩) s t x) (state : σ)
    (described : s.scope.Describes env items)
    (again : ∀ w', P state w' → Ends F.unit t.ip items w' o)
    (left : ∀ w', Resumes F exit r items o (.next env) w' →
      ∀ address, F.Places l address → Ends F.unit address items w' o)
    (gives : (x env).Gives w o fun e => Proceeds P (Resumes F exit r items o) (e.ofRound env state)) :
    Ends F.unit s.ip items w o := by
  have size : items.length = s.depth := described.depth
  refine h.goes (gives.mono fun e w' next => ?_) described
  cases e with
  | next inner =>
    intro more described'
    have size' : (items ++ more).length = t.depth := described'.depth
    obtain rfl : more = [] := by
      rw [List.length_append, h.depth] at size'
      exact List.eq_nil_of_length_eq_zero (by omega)
    rw [List.append_nil]
    exact again w' next
  | «break» =>
    rintro _ ⟨⟩ address place more
    have kept : (items ++ more).take s.depth = items := List.take_left' size
    simp only [State.scope, kept]
    exact left w' next address place
  | «return» results => exact next

theorem while_runs {c : Compiler Unit} {d : Option LoopExit → Compiler Unit}
    {x : Environment → Evaluation Value} {y : Environment → Evaluation Exit}
    (cond : Computes c 1 x ([·])) (body : ∀ exit, Runs exit (d exit) y) (n : Nat) :
    Runs exit (do
      let start ← newLabel
      let done ← newLabel
      placeLabel start
      c
      emit .not 0 0
      emitJump .jmpTrue false done
      inScope (d (some ⟨done, ← scope⟩))
      emitJump .jmp false start
      placeLabel done) fun env => Evaluation.loop (fun _ => do
        if (← x env).isTruthy then return (← y env).ofRound env ()
        else return .inr (.next env)) n () := by
  intro s
  have size := size_labelled s
  have awaits := awaits_labelled s.labelled
  refine Adds.label (Adds.label (Adds.place (Nat.le_refl _) (awaits_labelled s).labelled ?_))
  refine Adds.test cond _ fun r₁ e₁ => Adds.read ((inScope_adds (body _)).seq fun _ r₂ e₂ => ?_)
  refine (jmp_adds _).seq fun _ r₃ e₃ => Adds.place_last (by omega)
    ((((awaits.placed (by omega)).after e₁).after e₂).after e₃) ?_
  rintro F done ⟨back, top, jump⟩ inner test start
  obtain rfl := top.unique start
  have locals : r₃.locals = s.locals := jump.locals.trans (inner.locals.trans test.locals)
  have depth : r₃.depth = s.depth :=
    (jump.pushes (n := 0) rfl).trans (inner.depth.trans test.depth)
  refine ⟨Nat.le_of_eq depth.symm, fun {env items w o} gives described => ?_⟩
  have described₁ : r₁.scope.Describes env items := described.same test.locals test.depth
  have described₃ : r₃.scope.Describes env items := described.same locals depth
  have leaves (w' : World) (resumes : Resumes F exit (r₃.placed s.labelled.builder.labels.size) items o
      (.next env) w') (address : Nat) (place : F.Places s.labelled.builder.labels.size address) :
      Ends F.unit address items w' o := by
    obtain rfl := place.unique done
    have next := resumes [] (by rw [List.append_nil]; exact described₃)
    rwa [List.append_nil] at next
  refine Evaluation.Gives.loop (P := fun _ w => Ends F.unit s.ip items w o) (fun _ w gives => ?_) n () w
    gives
  refine test.goes (gives.bind.mono fun v w₁ gives => ?_) described
  split
  · rename_i truth
    rw [if_pos truth] at gives
    refine fun _ => inner.round (P := fun _ w => Ends F.unit s.ip items w o) () described₁ ?_ leaves
      gives.bind
    intro w' next
    exact Ends.jmp jump.holds next
  · rename_i truth
    rw [if_neg truth] at gives
    exact leaves w₁ gives

theorem repeat_runs {c : Compiler Unit} {d : Option LoopExit → Compiler Unit}
    {x : Environment → Evaluation Value} {y : Environment → Evaluation Exit}
    (cond : Computes c 1 x ([·])) (body : ∀ exit, Runs exit (d exit) y) (n : Nat) :
    Runs exit (do
      let start ← newLabel
      let exit ← newLabel
      let done ← newLabel
      placeLabel start
      let outer ← scope
      d (some ⟨exit, outer⟩)
      c
      emitJump .jmpTrue false done
      jumpOut outer start
      placeLabel done
      closeScope outer
      placeLabel exit) fun env => Evaluation.loop (fun _ => do
        match ← y env with
        | .next inner => if (← x inner).isTruthy then return .inr (.next env) else return .inl ()
        | e => return e.ofRound env ()) n () := by
  intro s
  have size₁ := size_labelled s
  have size₂ := size_labelled s.labelled
  -- the start of a round, the way out of the loop, and the end of a round that is the last one
  have start := (awaits_labelled s).labelled.labelled
  have left := (awaits_labelled s.labelled).labelled
  have done := awaits_labelled s.labelled.labelled
  refine Adds.label (Adds.label (Adds.label (Adds.place (Nat.le_refl _) start (Adds.read ?_))))
  replace left := left.placed (j := s.builder.labels.size) (by omega)
  replace done := done.placed (j := s.builder.labels.size) (by omega)
  have same : (s.labelled.labelled.labelled.placed s.builder.labels.size).locals = s.locals ∧
      (s.labelled.labelled.labelled.placed s.builder.labels.size).depth = s.depth ∧
      (s.labelled.labelled.labelled.placed s.builder.labels.size).closed = s.closed ∧
      (s.labelled.labelled.labelled.placed s.builder.labels.size).ip = s.ip := by
    simp [State.placed, State.labelled, State.ip, Builder.placeLabel, Builder.newLabel]
  generalize s.labelled.labelled.labelled.placed s.builder.labels.size = p at left done same ⊢
  obtain ⟨locals, depth, closed, here⟩ := same
  rw [locals, depth, closed]
  refine (body _ _).seq fun _ r₁ e₁ => (cond r₁).seq fun _ r₂ e₂ => ?_
  refine (jmpTrue_adds false _).seq fun _ r₃ e₃ => (jumpOut_adds _ _).seq fun _ r₄ e₄ => ?_
  refine Adds.place (by omega)
    ((((done.after e₁).after e₂).after e₃).after e₄) ?_
  refine (closeScope_adds _).seq fun _ r₅ e₅ => Adds.place_last (by omega)
    ((((((left.after e₁).after e₂).after e₃).after e₄).placed (by omega)).after e₅) ?_
  rintro F exits closes ends jumps ⟨address, place, jump⟩ test inner begins
  obtain rfl := place.unique ends
  have grown : s.depth ≤ r₁.depth := depth ▸ inner.depth
  have depth₃ : r₃.depth = r₁.depth := by
    have := jump.depth
    have := test.depth
    simp only [Bool.false_eq_true, if_false, Instruction.stackEffect, Nat.zero_ne_one] at *
    omega
  have depth₄ : r₄.depth = r₁.depth := jumps.depth.trans depth₃
  have depth₅ : r₅.depth = s.depth := by
    have : r₅.depth = min r₄.depth s.depth := closes.depth
    omega
  refine ⟨Nat.le_of_eq depth₅.symm, fun {env items w o} gives described => ?_⟩
  have size : items.length = s.depth := described.depth
  have described₅ : r₅.scope.Describes env items := described.same closes.locals depth₅
  have leaves (w' : World) (resumes : Resumes F exit (r₅.placed s.labelled.builder.labels.size) items o
      (.next env) w') : Goes F r₅ env items w' o := by
    intro described'
    have next := resumes [] (by rw [List.append_nil]; exact described')
    rwa [List.append_nil] at next
  refine Evaluation.Gives.loop (P := fun _ w => Ends F.unit s.ip items w o) (fun _ w gives => ?_) n () w
    gives
  rw [← here]
  refine inner.goes (gives.bind.mono fun e w₁ gives => ?_) (described.same locals depth)
  cases e with
  | next env' =>
    intro more
    refine test.goes (gives.bind.mono fun v w₂ gives described₂ => ?_)
    have count := described₂.count
    have depth₂ := test.depth
    simp only [List.length_cons, List.length_nil] at count
    refine jump.jmpTrue (fun truth => ?_) fun truth => ?_
    · rw [if_pos truth] at gives
      refine closes.goes described (leaves w₂ gives) (?_ : Scope.Describes _ env' _)
      rw [← append_temps_nil (items ++ more)]
      refine described₂.turn (jumps.locals.trans jump.locals) ?_
      show (r₄.depth : Int) = _
      simp
      omega
    · rw [if_neg (by simp [truth])] at gives
      refine jumps.ends (by omega) fun address place => ?_
      obtain rfl := place.unique begins
      have kept : (items ++ more).take s.depth = items := List.take_left' size
      exact kept.symm ▸ gives
  | «break» =>
    rintro _ ⟨⟩ address place more
    obtain rfl := place.unique exits
    have kept : (items ++ more).take s.depth = items := List.take_left' size
    exact kept.symm ▸ leaves w₁ gives described₅
  | «return» results => exact gives

/-! ## Control slots -/

/-- The numbers that control a numeric loop. -/
structure Control where
  current : Float
  limit : Float
  step : Float

/-- Three slots hold these numbers. -/
structure Control.In (x : Control) (a b c : Nat) (items : List Item) : Prop where
  current : items[a]? = some (.temporary (.number x.current))
  limit : items[b]? = some (.temporary (.number x.limit))
  step : items[c]? = some (.temporary (.number x.step))

/-- Code of the unit from `s` to `t` that pushes a value which depends on the numbers in control slots. -/
structure Recalls (F : Finished) (s t : State) (a b c : Nat) (v : Control → Value) : Prop where
  locals : t.locals = s.locals
  depth : t.depth = s.depth + 1
  goes : ∀ {env items w o x} (vs : List Value), x.In a b c items →
    Goes F t env (items ++ temps (vs ++ [v x])) w o → Goes F s env (items ++ temps vs) w o

/-- The code that `code` adds pushes a value which depends on the numbers in control slots. -/
def Recalling (code : Compiler Unit) (a b c : Nat) (v : Control → Value) : Prop :=
  ∀ s, Adds s.builder.labels.size code s fun _ t F => Recalls F s t a b c v

variable {a b c : Nat}

theorem loadConstant_recalls {v : Value} (isExact : v.IsExact) :
    Recalling (loadConstant v) a b c fun _ => v := by
  refine fun s => (loadConstant_computes isExact s).mono fun _ t F pushed => ?_
  refine ⟨pushed.locals, pushed.depth, fun {env items w o x} vs _ next => pushed.goes ?_⟩
  show Goes F t env (items ++ temps vs ++ temps [v]) w o
  rw [append_temps]
  exact next

theorem getSlot_recalls {slot : Nat} {v : Control → Value}
    (found : ∀ (x : Control) items, x.In a b c items → items[slot]? = some (.temporary (v x))) :
    Recalling (getSlot slot) a b c v := by
  refine fun s => (getSlot_adds slot).mono fun _ t F copies => ?_
  refine ⟨copies.locals, copies.pushes rfl, fun {env items w o x} vs holds next => ?_⟩
  refine copies.getStack (getElem?_append_of_eq_some (found x items holds) _) ?_
  show Goes F t env (items ++ temps vs ++ temps [v x]) w o
  rw [append_temps]
  exact next

/-- An operator on two values that are pushed one after the other. -/
theorem Recalling.binary {first second : Compiler Unit} {lhs rhs v : Control → Value} (op : BinaryOp)
    (left : Recalling first a b c lhs) (right : Recalling second a b c rhs)
    (result : ∀ x, Evaluation.binary op.positive (lhs x) (rhs x) = pure (v x)) :
    Recalling (do first; second; emit (binaryOpcode op).1 0 0) a b c v := by
  intro s
  have effect : Instruction.stackEffect (binaryOpcode op).1 0 0 = -1 := by cases op <;> rfl
  have plain : (binaryOpcode op).1 ≠ .ret := by cases op <;> simp [binaryOpcode]
  refine (left s).seq fun _ r₁ _ => (right r₁).seq fun _ r₂ _ => (emit_adds _ 0 0).mono ?_
  intro _ t F emits second first
  refine ⟨emits.locals.trans (second.locals.trans first.locals), ?_, ?_⟩
  · have := emits.depth
    have := second.depth
    have := first.depth
    omega
  · intro env items w o x vs holds next
    refine first.goes vs holds (second.goes _ holds ?_)
    have stack : items ++ temps (vs ++ [lhs x] ++ [rhs x]) =
        items ++ temps vs ++ temps [lhs x, rhs x] := by
      rw [append_temps]
      simp
    rw [stack]
    refine emits.apply plain (Exec.binary_implements ..) (by rw [effect]; rfl) ?_
    rw [result]
    show Goes F t env (items ++ temps vs ++ temps [v x]) w o
    rw [append_temps]
    exact next

theorem binary_and_boolean (p q : Bool) :
    Evaluation.binary .and (.boolean p) (.boolean q) = pure (.boolean (p && q)) := by
  cases p <;> rfl

theorem binary_or_boolean (p q : Bool) :
    Evaluation.binary .or (.boolean p) (.boolean q) = pure (.boolean (p || q)) := by
  cases p <;> rfl

theorem getCurrent_recalls : Recalling (getSlot a) a b c fun x => .number x.current :=
  getSlot_recalls fun _ _ holds => holds.current

theorem getStep_recalls : Recalling (getSlot c) a b c fun x => .number x.step :=
  getSlot_recalls fun _ _ holds => holds.step

theorem loopGuard_recalls (a b c : Nat) :
    Recalling (loopGuard a b c) a b c fun x => .boolean (inRange x.current x.limit x.step) := by
  have zero : Recalling (loadConstant (.number 0.0)) a b c fun _ => .number 0.0 :=
    loadConstant_recalls Number.isNegative_zero
  have getLimit : Recalling (getSlot b) a b c fun x => .number x.limit :=
    getSlot_recalls fun _ _ holds => holds.limit
  have rises := (zero.binary .lt getStep_recalls fun _ => rfl).binary .and
    (getCurrent_recalls.binary .ltEq getLimit fun _ => rfl)
    fun x => binary_and_boolean (decide (0.0 < x.step)) (decide (x.current ≤ x.limit))
  have falls := (getStep_recalls.binary .lt zero fun _ => rfl).binary .and
    (getLimit.binary .ltEq getCurrent_recalls fun _ => rfl)
    fun x => binary_and_boolean (decide (x.step < 0.0)) (decide (x.limit ≤ x.current))
  have code := rises.binary .or falls fun x => binary_or_boolean ..
  simp only [bind_assoc] at code
  exact code

/-- Code of the unit from `s` to `t` that adds the step to the current number. -/
structure Advances (F : Finished) (s t : State) (a b c : Nat) : Prop where
  locals : t.locals = s.locals
  depth : t.depth = s.depth
  goes : ∀ {env items w o} {x : Control}, x.In a b c items →
    (s.scope.Describes env items →
      Ends F.unit t.ip (items.set a (.temporary (.number (x.current + x.step)))) w o) →
    Goes F s env items w o

theorem advance_adds (a b c : Nat) :
    Adds s.builder.labels.size (do getSlot a; getSlot c; emit .add 0 0; putSlot a) s fun _ t F =>
      Advances F s t a b c := by
  have sum : Recalling (do getSlot a; getSlot c; emit .add 0 0) a b c
      fun x => .number (x.current + x.step) :=
    getCurrent_recalls.binary .add getStep_recalls fun _ => rfl
  have joined : Adds s.builder.labels.size
      (do (do getSlot a; getSlot c; emit .add 0 0); putSlot a) s fun _ t F => Advances F s t a b c := by
    refine (sum s).seq fun _ r _ => Adds.read ((emit_adds .putStack (r.depth - a) 0).mono ?_)
    intro _ t F put sum
    have depth : t.depth = s.depth := by
      have := put.depth
      have := sum.depth
      simp only [Instruction.stackEffect] at *
      omega
    refine ⟨put.locals.trans sum.locals, depth, fun {env items w o x} holds next described => ?_⟩
    rw [← append_temps_nil items] at described
    have size := described.count
    rw [← append_temps_nil items]
    refine sum.goes [] holds (fun _ => ?_) described
    have stack := put.holds
    rw [show r.depth - a = items.length + 1 - a by simp at size; have := sum.depth; omega] at stack
    refine Ends.putTemporary stack holds.current ?_
    rw [← put.ip]
    exact next (by rwa [append_temps_nil] at described)
  simpa only [bind_assoc] using joined

/-! ## Numeric loops -/

/-- The slots of a numeric loop. -/
def Control.slots (x : Control) : List Item :=
  temps [.number x.current, .number x.limit, .number x.step]

theorem Control.in_slots (x : Control) {a b c : Nat} (first : a = items.length)
    (second : b = items.length + 1) (third : c = items.length + 2) : x.In a b c (items ++ x.slots) := by
  subst first second third
  constructor <;> simp [slots, temps]

theorem Control.set_slots (x : Control) {a : Nat} {v : Float} (first : a = items.length) :
    (items ++ x.slots).set a (.temporary (.number v)) =
      items ++ ({ x with current := v } : Control).slots := by
  subst first
  simp [slots, temps]

/-- Code of the unit from `s` to `t` that runs the rounds of a numeric loop and leaves its slots. -/
structure Rounds (F : Finished) (s t : State) (outer : Scope) (exit : Option LoopExit) (var : String)
    (y : Environment → Evaluation Exit) : Prop where
  locals : t.locals = outer.locals
  depth : t.depth = min s.depth outer.depth
  goes : ∀ {env items w o} (n : Nat) (x : Control), outer.Describes env items →
    (Evaluation.loop (fun v => do
      if inRange v x.limit x.step then
        let inner ← Evaluation.declare env [var] [.number v]
        return (← y inner).ofRound env (v + x.step)
      else return .inr (.next env)) n x.current).Gives w o (Resumes F exit t items o) →
    Goes F s env (items ++ x.slots) w o

theorem Adds.advance {β : Type} {rest : Compiler β} {Q : β → State → Finished → Prop} {a b c : Nat}
    (next : ∀ t, Emitted s.builder.labels.size s t →
      Adds k rest t fun x r F => Advances F s t a b c → Q x r F) :
    Adds k (do getSlot a; getSlot c; emit .add 0 0; putSlot a; rest) s Q := by
  have joined := (advance_adds a b c).seq fun _ => next
  simpa only [bind_assoc] using joined

theorem Adds.unless {β : Type} {rest : Compiler β} {Q : β → State → Finished → Prop} (l : Nat)
    (next : ∀ t, Emitted s.builder.labels.size s t →
      Adds k rest t fun x r F => Unless F s t l → Q x r F) :
    Adds k (do emit .not 0 0; emitJump .jmpTrue false l; rest) s Q := by
  have joined := (unless_adds l).seq fun _ => next
  simpa only [bind_assoc] using joined

theorem rounds_adds {d : Option LoopExit → Compiler Unit} {y : Environment → Evaluation Exit}
    (body : ∀ exit, Runs exit (d exit) y) (var : String) (outer : Scope) (exit : Option LoopExit) :
    Adds s.builder.labels.size (do
      let control ← scope
      let (v, limitSlot, stepSlot) := (control.depth - 3, control.depth - 2, control.depth - 1)
      let top ← newLabel
      let exit ← newLabel
      placeLabel top
      loopGuard v limitSlot stepSlot
      emit .not 0 0
      emitJump .jmpTrue false exit
      getSlot v
      bindLocals [var]
      d (some ⟨exit, control⟩)
      closeScope control
      getSlot v
      getSlot stepSlot
      emit .add 0 0
      putSlot v
      emitJump .jmp false top
      placeLabel exit
      closeScope outer) s fun _ t F => Rounds F s t outer exit var y := by
  have size₁ := size_labelled s
  have size₂ := size_labelled s.labelled
  have top := (awaits_labelled s).labelled
  have out := awaits_labelled s.labelled
  refine Adds.read (Adds.label (Adds.label (Adds.place (Nat.le_refl _) top ?_)))
  refine (loopGuard_recalls _ _ _ _).seq fun _ r₁ e₁ => ?_
  refine Adds.unless _ fun r₂ e₂ => (getSlot_adds _).seq fun _ r₃ e₃ => ?_
  refine (bindLocals_adds [var]).seq fun _ r₄ e₄ => (body _ r₄).seq fun _ r₅ e₅ => ?_
  refine (closeScope_adds _).seq fun _ r₆ e₆ => Adds.advance (b := s.depth - 2) fun r₇ e₇ => ?_
  refine (jmp_adds _).seq fun _ r₈ e₈ => Adds.place (by omega) ((((((((((out.placed (by omega)).after
    e₁).after e₂).after e₃).after e₄).after e₅).after e₆).after e₇).after e₈)) ?_
  refine (closeScope_adds outer).mono ?_
  rintro - t F leaves ends ⟨back, start, jump⟩ sum closes inner binds copies test guard' begins
  obtain rfl := start.unique begins
  have depth₂ : r₂.depth = s.depth := by
    have : r₁.depth = s.depth + 1 := guard'.depth
    have := test.depth
    omega
  have locals₂ : r₂.locals = s.locals := test.locals.trans guard'.locals
  have depth₆ : r₆.depth = s.depth := by
    have : r₆.depth = min r₅.depth s.depth := closes.depth
    have := inner.depth
    have := binds.depth
    have := copies.pushes (n := 1) rfl
    omega
  have depth₈ : r₈.depth = s.depth := (jump.pushes (n := 0) rfl).trans (sum.depth.trans depth₆)
  have locals₈ : r₈.locals = s.locals := jump.locals.trans (sum.locals.trans closes.locals)
  refine ⟨leaves.locals, leaves.depth.trans (congrArg (min · outer.depth) depth₈), ?_⟩
  intro env items w o n x outside gives described
  have size : items.length + 3 = s.depth := described.count
  -- the slots in a round that starts with the number `v`
  let slots (v : Float) : List Item := ({ x with current := v } : Control).slots
  have held (v : Float) := Control.in_slots { x with current := v }
    (show s.depth - 3 = items.length by omega) (show s.depth - 2 = items.length + 1 by omega)
    (show s.depth - 1 = items.length + 2 by omega)
  have describes {r : State} (v : Float) (locals : r.locals = s.locals) (depth : r.depth = s.depth) :
      r.scope.Describes env (items ++ slots v) := described.turn locals (by simp [depth])
  have leaving (v : Float) (w' : World) (resumes : Resumes F exit t items o (.next env) w') :
      Ends F.unit r₈.ip (items ++ slots v) w' o := by
    have next := resumes []
    rw [List.append_nil] at next
    exact leaves.goes outside next (describes v locals₈ depth₈)
  have guarded (v : Float) (w : World) (next : if inRange v x.limit x.step
        then Goes F r₂ env (items ++ slots v) w o else Ends F.unit r₈.ip (items ++ slots v) w o) :
      Ends F.unit s.ip (items ++ slots v) w o := by
    have tested : Goes F r₁ env (items ++ slots v ++ temps [.boolean (inRange v x.limit x.step)]) w o := by
      refine test.goes ?_
      rw [Value.isTruthy_boolean]
      split at next
      · rwa [if_pos ‹_›]
      · rw [if_neg ‹_›]
        intro address place
        obtain rfl := place.unique ends
        exact next
    have start := guard'.goes [] (held v) tested
    rw [append_temps_nil] at start
    exact start (describes v rfl rfl)
  refine Evaluation.Gives.loop (P := fun v w => Ends F.unit s.ip (items ++ slots v) w o)
    (fun v w gives => guarded v w ?_) n x.current w gives
  split
  · rename_i runs
    rw [if_pos runs] at gives
    refine copies.getStack (held v).current (binds.goes rfl (inner.goes ?_))
    have gives := gives.bind
    rw [Evaluation.Gives, outcome_declare env [var] [.number v] w rfl] at gives
    refine gives.bind.mono fun e w' next => ?_
    cases e with
    | next inside =>
      intro more
      rw [List.append_assoc]
      refine closes.goes (describes v rfl rfl) (sum.goes (held v) fun _ => ?_)
      rw [Control.set_slots _ (show s.depth - 3 = items.length by omega)]
      exact Ends.jmp jump.holds next
    | «break» =>
      rintro _ ⟨⟩ address place more
      obtain rfl := place.unique ends
      rw [List.append_assoc]
      have kept : (items ++ slots v ++ (w.fresh [var].length ++ more)).take s.depth = items ++ slots v :=
        List.take_left' (describes v rfl rfl).depth
      exact kept.symm ▸ leaving v w' next
    | «return» results => exact next
  · rename_i past
    rw [if_neg past] at gives
    exact leaving v w gives

theorem numericFor_runs {c₁ c₂ c₃ : Compiler Unit} {d : Option LoopExit → Compiler Unit}
    {x₁ x₂ x₃ : Environment → Evaluation Value} {y : Environment → Evaluation Exit}
    (start : Computes c₁ 1 x₁ ([·])) (limit : Computes c₂ 1 x₂ ([·])) (step : Computes c₃ 1 x₃ ([·]))
    (body : ∀ exit, Runs exit (d exit) y) (var : String) (n : Nat) :
    Runs exit (do
      let outer ← scope
      c₁
      c₂
      c₃
      emit .forPrep 0 0
      let control ← scope
      let (v, limitSlot, stepSlot) := (control.depth - 3, control.depth - 2, control.depth - 1)
      let top ← newLabel
      let exit ← newLabel
      placeLabel top
      loopGuard v limitSlot stepSlot
      emit .not 0 0
      emitJump .jmpTrue false exit
      getSlot v
      bindLocals [var]
      d (some ⟨exit, control⟩)
      closeScope control
      getSlot v
      getSlot stepSlot
      emit .add 0 0
      putSlot v
      emitJump .jmp false top
      placeLabel exit
      closeScope outer) (fun env => do
        let start ← x₁ env
        let limit ← x₂ env
        let step ← x₃ env
        let (start, limit, step) ← Evaluation.prepare start limit step
        Evaluation.loop (fun v => do
          if inRange v limit step then
            let inner ← Evaluation.declare env [var] [.number v]
            return (← y inner).ofRound env (v + step)
          else return .inr (.next env)) n start) := by
  intro s
  refine Adds.read ((start s).seq fun _ r₁ _ => (limit r₁).seq fun _ r₂ _ => (step r₂).seq fun _ r₃ _ => ?_)
  refine (emit_adds .forPrep 0 0).seq fun _ r₄ _ => (rounds_adds body var _ exit).mono ?_
  intro _ t F rounds prepare third second first
  have depth₄ : r₄.depth = s.depth + 3 := by
    rw [prepare.pushes (n := 0) rfl, third.depth, second.depth, first.depth]
  refine ⟨?_, fun {env items w o} gives described => ?_⟩
  · have : t.depth = min r₄.depth s.depth := rounds.depth
    omega
  · refine first.goes (gives.bind.mono fun v₁ w₁ gives => second.goes ?_) described
    refine gives.bind.mono fun v₂ w₂ gives => third.goes (gives.bind.mono fun v₃ w₃ gives => ?_)
    have stack : items ++ temps [v₁] ++ temps [v₂] ++ temps [v₃] = items ++ temps [v₁, v₂, v₃] := by
      simp [temps]
    rw [stack]
    refine prepare.operate (by simp) (Exec.forPrep_implements ..) (fun _ => rfl) ?_
    refine gives.bind.mono fun r w₄ gives => ?_
    exact rounds.goes n ⟨r.1, r.2.1, r.2.2⟩ described gives

end Compiler

end ScriptEngine
