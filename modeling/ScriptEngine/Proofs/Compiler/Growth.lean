import ScriptEngine.Proofs.Compiler.Draft
import ScriptEngine.Proofs.Evaluation.Expression

/-!
# Code that stays, nested functions included

While a function body is compiled its builder only grows, so whatever is emitted or added stands in the
finished unit. `Lays` says what a compiler action lays down for the unit in the end, and this module has
the rules for actions one after another and for the primitives. They hold in all function bodies, with
their captured names, constants and nested units.
-/

set_option linter.dupNamespace false

namespace ScriptEngine

/-- `b` is an earlier state of `b'`. The first `k` labels are as they were. -/
structure Builder.Precedes (k : Nat) (b b' : Builder) : Prop where
  grows : b.Extends k b'
  child : ∀ id c, b.draft.child? id = some c → b'.draft.child? id = some c

namespace Builder.Precedes

variable {k : Nat} {b b' b'' : Builder}

theorem refl (k : Nat) (b : Builder) : Precedes k b b := ⟨.refl k b, fun _ _ found => found⟩

theorem trans (h : Precedes k b b') (h' : Precedes k b' b'') : Precedes k b b'' :=
  ⟨h.grows.trans h'.grows, fun id c found => h'.child id c (h.child id c found)⟩

theorem weaken {j : Nat} (h : Precedes k b b') (le : j ≤ k) : Precedes j b b' :=
  ⟨h.grows.weaken le, h.child⟩

end Builder.Precedes

namespace Compiler

variable {s t : State} {k : Nat}

/-- A finished unit with its builder, nested units included. -/
structure Whole extends Finished where
  nested : unit.children = builder.children.reverse

/-- What holds of every state of the compiler. -/
structure State.Sound (s : State) : Prop where
  pending : ∀ jump ∈ s.builder.pending, jump.1 < s.builder.code.size
  places : ∀ (l : Nat) address, s.builder.labels[l]? = some (some address) →
    address ≤ s.builder.code.size
  children : ∀ c ∈ s.builder.children, c.id < s.nextId

/-- The compiler has gone from `s` to `t`, and the first `k` labels are as they were. -/
structure Grown (k : Nat) (s t : State) : Prop where
  builder : s.builder.Precedes k t.builder
  sound : t.Sound
  ids : t.id = s.id ∧ s.nextId ≤ t.nextId

namespace Grown

theorem refl (sound : s.Sound) : Grown k s s := ⟨.refl _ _, sound, rfl, Nat.le_refl _⟩

theorem trans {r : State} (h : Grown k r s) (h' : Grown k s t) : Grown k r t :=
  ⟨h.builder.trans h'.builder, h'.sound, h'.ids.1.trans h.ids.1, Nat.le_trans h.ids.2 h'.ids.2⟩

theorem weaken {j : Nat} (h : Grown k s t) (le : j ≤ k) : Grown j s t :=
  ⟨h.builder.weaken le, h.sound, h.ids⟩

theorem labels (h : Grown k s t) : s.builder.labels.size ≤ t.builder.labels.size :=
  h.builder.grows.labels

/-- What is a part of the unit's builder later is a part of it already. -/
theorem within (h : Grown k s t) {last : Builder} (within : t.builder.Precedes 0 last) :
    s.builder.Precedes 0 last :=
  (h.builder.weaken (Nat.zero_le k)).trans within

end Grown

theorem State.Awaits.grown {l : Nat} (h : s.Awaits l) (grown : Grown s.builder.labels.size s t) :
    t.Awaits l := by
  rw [State.Awaits, grown.builder.grows.kept l h.inside]
  exact h

theorem grown_labelled (sound : s.Sound) : Grown s.builder.labels.size s s.labelled := by
  refine ⟨⟨.newLabel s.builder, fun _ _ found => found⟩, ⟨sound.pending, fun l address found => ?_,
    sound.children⟩, rfl, Nat.le_refl _⟩
  simp only [State.labelled, Builder.newLabel, Array.getElem?_push] at found
  split at found
  · cases found
  · exact sound.places l address found

theorem grown_placed (sound : s.Sound) {l : Nat} (high : k ≤ l) (awaits : s.Awaits l) :
    Grown k s (s.placed l) := by
  refine ⟨⟨.placeLabel high awaits, fun _ _ found => found⟩, ⟨sound.pending, fun j address found => ?_,
    sound.children⟩, rfl, Nat.le_refl _⟩
  simp only [State.placed, Builder.placeLabel, Array.getElem?_setIfInBounds] at found
  split at found
  · split at found
    · cases found
      exact Nat.le_refl _
    · cases found
  · exact sound.places j address found

/-- If `c` succeeds from `s`, it leaves the first `k` labels alone, and `Q` holds for every unit that is
finished from what it leads to. -/
def Lays {α : Type} (k : Nat) (c : Compiler α) (s : State) (Q : α → State → Whole → Prop) : Prop :=
  s.Sound → k ≤ s.builder.labels.size → Leads (fun _ => True) c s fun a t =>
    Grown k s t ∧ ∀ F : Whole, t.builder.Precedes 0 F.builder → Q a t F

namespace Lays

variable {α β : Type} {P Q : α → State → Whole → Prop}

theorem pure {a : α} (h : ∀ F, Q a s F) : Lays k (Pure.pure a) s Q :=
  fun sound _ => Leads.pure ⟨.refl sound, fun F _ => h F⟩

theorem throw {e : CompileError} : Lays k (MonadExcept.throw e : Compiler α) s Q :=
  fun _ _ => Leads.throw trivial

theorem imp {c : Compiler α} (h : Lays k c s P) (weaken : ∀ a t F, P a t F → Q a t F) : Lays k c s Q := by
  intro sound low
  refine (h sound low).mono ?_
  rintro a t ⟨grown, holds⟩
  exact ⟨grown, fun F within => weaken a t F (holds F within)⟩

/-- The last of several actions. -/
theorem mono {c : Compiler α} (h : Lays s.builder.labels.size c s P)
    (weaken : ∀ a t F, P a t F → Q a t F) : Lays k c s Q := by
  intro sound low
  refine (h sound (Nat.le_refl _)).mono ?_
  rintro a t ⟨grown, holds⟩
  exact ⟨grown.weaken low, fun F within => weaken a t F (holds F within)⟩

/-- One action after another. What the first one lays down is at hand for the unit in the end. -/
theorem seq {c : Compiler α} {f : α → Compiler β} {R : β → State → Whole → Prop}
    (first : Lays s.builder.labels.size c s P)
    (next : ∀ a t, Grown s.builder.labels.size s t → Lays k (f a) t fun b r F => P a t F → R b r F) :
    Lays k (c >>= f) s R := by
  intro sound low
  refine (first sound (Nat.le_refl _)).seq ?_
  rintro a t ⟨grown, holds⟩
  refine (next a t grown grown.sound (low.trans grown.labels)).mono ?_
  rintro b r ⟨grown', holds'⟩
  exact ⟨(grown.weaken low).trans grown', fun F within => holds' F within (holds F (grown'.within within))⟩

/-- Reading the state. -/
theorem read {f : State → Compiler α} (h : Lays k (f s) s Q) : Lays k (MonadState.get >>= f) s Q := h

theorem ite {p : Prop} [Decidable p] {c d : Compiler α} (yes : p → Lays k c s Q)
    (no : ¬p → Lays k d s Q) : Lays k (if p then c else d) s Q := by
  split
  · exact yes ‹_›
  · exact no ‹_›

theorem line {c : Compiler α} {line : Nat} (h : Lays k c { s with line } Q) :
    Lays k (do setLine line; c) s Q := by
  intro sound low
  refine Leads.bind (Leads.modify ?_)
  refine (h ⟨sound.pending, sound.places, sound.children⟩ low).mono ?_
  rintro a t ⟨grown, holds⟩
  exact ⟨⟨grown.builder, grown.sound, grown.ids⟩, holds⟩

/-- A change of the state that leaves the code alone. -/
theorem turn {f : State → State} {Q : PUnit → State → Whole → Prop} (builder : (f s).builder = s.builder)
    (ids : (f s).id = s.id ∧ (f s).nextId = s.nextId) (h : ∀ F, Q ⟨⟩ (f s) F) : Lays k (modify f) s Q := by
  intro sound low
  refine Leads.modify ⟨⟨?_, ?_, ids.1, Nat.le_of_eq ids.2.symm⟩, fun F _ => h F⟩
  · rw [builder]
    exact .refl k _
  · refine ⟨?_, ?_, ?_⟩ <;> rw [builder]
    · exact sound.pending
    · exact sound.places
    · rw [ids.2]
      exact sound.children

theorem label {f : Nat → Compiler α} (h : Lays k (f s.builder.labels.size) s.labelled Q) :
    Lays k (newLabel >>= f) s Q := by
  intro sound low
  have grown := grown_labelled sound
  refine (h grown.sound (low.trans grown.labels)).mono ?_
  rintro a t ⟨grown', holds⟩
  exact ⟨(grown.weaken low).trans grown', holds⟩

/-- Placing a label that nobody before `s` knows of. -/
theorem place {l : Nat} {c : Compiler α} (high : k ≤ l) (awaits : s.Awaits l)
    (next : Lays k c (s.placed l) fun a t F => F.Places l s.ip → Q a t F) :
    Lays k (do placeLabel l; c) s Q := by
  intro sound low
  have grown := grown_placed sound high awaits
  refine (next grown.sound (low.trans grown.labels)).mono ?_
  rintro a t ⟨grown', holds⟩
  refine ⟨grown.trans grown', fun F within => holds F within ?_⟩
  refine (grown'.within within).grows.placed l s.ip ?_
  simp [State.placed, Builder.placeLabel, State.ip, awaits.inside]

theorem place_last {l : Nat} {Q : PUnit → State → Whole → Prop} (high : k ≤ l)
    (awaits : s.Awaits l) (next : ∀ F : Whole, F.Places l s.ip → Q ⟨⟩ (s.placed l) F) :
    Lays k (placeLabel l) s Q := by
  have placed : Lays k (do placeLabel l; Pure.pure ⟨⟩) s Q := place high awaits (pure next)
  exact placed

/-- What a whole run lays down. -/
theorem ran {c : Compiler α} (h : Lays 0 c s Q) (sound : s.Sound) {a : α} (run : c.run s = .ok (a, t))
    {F : Whole} (last : F.builder = t.builder) : Q a t F :=
  ((h sound (Nat.zero_le _)).ok run).2 F (last ▸ .refl 0 _)

end Lays

/-! ## Instructions -/

/-- `t` is `s` after one instruction of the unit. -/
structure Puts (F : Whole) (s t : State) (op : Opcode) (a b : Nat) : Prop where
  locals : t.locals = s.locals
  enclosing : t.enclosing = s.enclosing
  upvalueCount : t.upvalueCount = s.upvalueCount
  depth : (t.depth : Int) = s.depth + Instruction.stackEffect op a b
  closed : (t.closed : Int) = s.closed + Instruction.closedEffect op a
  ip : t.ip = s.ip + 1
  holds : F.unit.Holds s.ip op a b

theorem apply_leads_balanced (op : Opcode) (a b : Nat) (ins : Instruction) :
    Leads (fun _ => True) (apply op a b ins) s fun _ t => ∃ depth closed : Nat,
      t = { s with depth, closed } ∧ (depth : Int) = s.depth + Instruction.stackEffect op a b ∧
        (closed : Int) = s.closed + Instruction.closedEffect op a := by
  refine Leads.bind (Leads.get ?_)
  refine Leads.ite (fun _ => Leads.throw trivial) fun balanced => Leads.set ⟨_, _, rfl, ?_⟩
  omega

theorem emit_lays (op : Opcode) (a b : Nat) : Lays k (emit op a b) s fun _ t F => Puts F s t op a b := by
  intro sound low
  unfold emit
  refine Leads.ite (fun _ => Leads.bind (Leads.throw trivial)) fun small => ?_
  refine Leads.ite (fun _ => Leads.bind (Leads.throw trivial)) fun small' => ?_
  have fit : (Instruction.make op a.toUInt16 b.toUInt8).a.toNat = a := by
    simp [Instruction.make]
    omega
  have fit' : (Instruction.make op a.toUInt16 b.toUInt8).b.toNat = b := by
    simp [Instruction.make]
    omega
  refine (apply_leads_balanced op a b _).seq ?_
  rintro - t ⟨depth, closed, rfl, balance, balance'⟩
  refine Leads.modify ⟨⟨⟨.emit k _ _ _ (fun _ mem => mem) fun _ mem => Or.inl mem, fun _ _ found => found⟩,
    ?_, rfl, Nat.le_refl _⟩, fun F within => ⟨rfl, rfl, rfl, balance, balance',
      by simp [State.ip, Builder.emit], ?_⟩⟩
  · refine ⟨fun jump mem => ?_, fun l address found => ?_, sound.children⟩
    · have := sound.pending jump mem
      simp only [Builder.emit, Array.size_push]
      omega
    · have := sound.places l address found
      simp only [Builder.emit, Array.size_push]
      omega
  · have here := within.grows.code s.ip (.make op a.toUInt16 b.toUInt8) (by simp [State.ip, Builder.emit])
    have holds := F.linked.plain here (Instruction.opcode?_make ..) fun l mem => by
      rcases within.grows.later _ mem with mem | new
      · exact absurd (sound.pending _ mem) (Nat.lt_irrefl _)
      · simp only [State.ip, Builder.emit, Array.size_push] at new
        omega
    rwa [fit, fit'] at holds

theorem emitJump_lays {op : Opcode} (jump : op.isJump = true) (peek : Bool) (l : Nat) :
    Lays k (emitJump op peek l) s fun _ t F =>
      ∃ address, F.Places l address ∧ Puts F s t op address (if peek then 1 else 0) := by
  have effect (a b : Nat) : Instruction.stackEffect op a b = Instruction.stackEffect op 0 b := by
    cases op <;> cases jump <;> rfl
  have closes (a : Nat) : Instruction.closedEffect op a = Instruction.closedEffect op 0 := by
    cases op <;> cases jump <;> rfl
  intro sound low
  unfold emitJump
  refine (apply_leads_balanced op 0 _ _).seq ?_
  rintro - t ⟨depth, closed, rfl, balance, balance'⟩
  refine Leads.modify ⟨⟨⟨.emit k _ _ _ (fun _ mem => ?_) fun jump mem => ?_, fun _ _ found => found⟩, ?_,
    rfl, Nat.le_refl _⟩, fun F within => ?_⟩
  · exact Array.mem_push_of_mem _ mem
  · rcases Array.mem_push.1 mem with mem | rfl
    · exact Or.inl mem
    · exact Or.inr rfl
  · refine ⟨fun jump mem => ?_, fun l address found => ?_, sound.children⟩
    · simp only [Builder.emitJump, Builder.emit, Array.size_push]
      rcases Array.mem_push.1 mem with mem | rfl
      · have := sound.pending jump mem
        omega
      · simp
    · have := sound.places l address found
      simp only [Builder.emitJump, Builder.emit, Array.size_push]
      omega
  · have here := within.grows.code s.ip (.make op 0 (if peek then 1 else 0))
      (by simp [State.ip, Builder.emitJump, Builder.emit])
    have mem := within.grows.pending (s.ip, l) (by simp [State.ip, Builder.emitJump])
    obtain ⟨address, place⟩ := F.linked.place mem
    refine ⟨address, place, rfl, rfl, rfl, by rw [effect]; exact balance,
      by rw [closes]; exact balance',
      by simp [State.ip, Builder.emitJump, Builder.emit], ?_⟩
    have holds := F.linked.jump here (Instruction.opcode?_make ..) mem (fun l' mem' => ?_) place
    · cases peek <;> exact holds
    · rcases within.grows.later _ mem' with mem' | new
      · rcases Array.mem_push.1 mem' with mem' | same
        · exact absurd (sound.pending _ mem') (Nat.lt_irrefl _)
        · exact (Prod.mk.inj same).2
      · simp only [State.ip, Builder.emitJump, Builder.emit, Array.size_push] at new
        omega

/-- `t` is `s` with more constants. -/
structure Stocks (F : Whole) (s t : State) (i : Nat) (v : Value) : Prop where
  same : ∃ builder, t = { s with builder } ∧ builder.code = s.builder.code
  found : ∃ w, F.unit.constants[i]? = some w ∧ (w == v ∨ w = v)

/-- A constant is found under the index that it was given, or one that equals it. -/
theorem addConstant_lays (v : Value) : Lays k (addConstant v) s fun i t F => Stocks F s t i v := by
  intro sound low
  refine Leads.bind (Leads.get (Leads.bind (Leads.lift ?_ fun _ _ => trivial)))
  rintro ⟨i, builder⟩ added
  unfold Builder.addConstant at added
  refine Leads.bind (Leads.set (Leads.pure ?_))
  cases found : s.builder.constants.findIdx? (· == v) with
  | some j =>
    rw [found] at added
    cases added
    obtain ⟨inside, equal, -⟩ := Array.findIdx?_eq_some_iff_getElem.1 found
    refine ⟨.refl sound, fun F within => ⟨⟨s.builder, rfl, rfl⟩, _, ?_, Or.inl equal⟩⟩
    rw [F.linked.constants]
    exact within.grows.constants i _ (Array.getElem?_eq_getElem inside)
  | none =>
    rw [found] at added
    dsimp only at added
    split at added
    · cases added
      refine ⟨⟨⟨⟨fun _ _ h => h, fun _ h => h, fun _ h => Or.inl h, fun _ _ h => h, Nat.le_refl _,
        fun _ _ => rfl, fun j w old => ?_⟩, fun _ _ found => found⟩, ⟨sound.pending, sound.places,
        sound.children⟩, rfl, Nat.le_refl _⟩, fun F within => ⟨⟨_, rfl, rfl⟩, v, ?_, Or.inr rfl⟩⟩
      · have := (Array.getElem?_eq_some_iff.1 old).1
        rw [Array.getElem?_push_lt this, ← Array.getElem?_eq_getElem this]
        exact old
      · rw [F.linked.constants]
        exact within.grows.constants _ v (by simp)
    · cases added

/-! ## Nested units -/

/-- A unit with a greater id than the others is added and found, and the others stay. -/
theorem precedes_addChild {b : Builder} {u : CodeUnit} (smaller : ∀ c ∈ b.children, c.id < u.id) (k : Nat) :
    b.Precedes k (b.addChild u) ∧ (b.addChild u).draft.child? u.id = some u := by
  have added : (b.addChild u).children = u :: b.children := Builder.insertChild_greatest smaller
  refine ⟨⟨⟨fun _ _ h => h, fun _ h => h, fun _ h => Or.inl h, fun _ _ h => h, Nat.le_refl _,
    fun _ _ => rfl, fun _ _ h => h⟩, fun id c found => ?_⟩, ?_⟩
  · simp only [Builder.draft, CodeUnit.child?] at found ⊢
    rw [added, List.reverse_cons, List.find?_append, found]
    rfl
  · have absent : b.children.reverse.find? (·.id == u.id) = none := by
      rw [List.find?_eq_none]
      intro c mem
      have := smaller c (List.mem_reverse.1 mem)
      simp
      omega
    simp only [Builder.draft, CodeUnit.child?]
    rw [added, List.reverse_cons, List.find?_append, absent]
    simp

theorem Whole.child_of_precedes {F : Whole} {b : Builder} (h : b.Precedes 0 F.builder) {id : Nat}
    {c : CodeUnit} (found : b.draft.child? id = some c) : F.unit.child? id = some c := by
  have there := h.child id c found
  rw [CodeUnit.child?, F.nested]
  exact there

/-- A finished unit with its builder. -/
theorem whole_of_finish {b : Builder} {id : Nat} {name source : String} {u : CodeUnit}
    (finished : b.finish id name source = .ok u)
    (places : ∀ (l : Nat) address, b.labels[l]? = some (some address) → address ≤ b.code.size) :
    ∃ F : Whole, F.builder = b ∧ F.unit = u := by
  obtain ⟨small, settled, code, -, -, -, constants, children, -⟩ := Builder.finish_eq_ok finished
  exact ⟨⟨⟨b, u, ⟨small, code, settled, constants, places⟩⟩, children⟩, rfl, rfl⟩

end Compiler

end ScriptEngine
