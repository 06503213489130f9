import ScriptEngine.Compiler.Emit
import ScriptEngine.Proofs.Compiler.Finish
import ScriptEngine.Proofs.Compiler.Outcome
import ScriptEngine.Proofs.Evaluation.Picture
import ScriptEngine.Proofs.Number.Sign

/-!
# Where emitted code ends up

Code that is emitted early stands unchanged in the finished unit, but for the addresses of its jumps.
`Extends` is the order in which builders grow; `Linked` relates the last of them to the unit. For each
primitive of the compiler there is a statement of what it adds and, if the unit is finished from a
builder that extends the new one, of which instruction the unit holds at that place.
-/

set_option linter.dupNamespace false

namespace ScriptEngine

/-- What the constants of a unit can be; equality tells such values apart. -/
def Value.IsExact : Value → Prop
  | nil | boolean _ | string _ => True
  | number n => Number.isNegative n = false
  | _ => False

theorem Value.eq_of_beq_exact {v v' : Value} (h : v.IsExact) (h' : v'.IsExact)
    (equal : (v == v') = true) : v = v' := by
  have equal : v.equal v' = true := equal
  cases v <;> cases v' <;> simp only [Value.equal, Value.IsExact, Bool.false_eq_true] at h h' equal
  · rfl
  · rw [beq_iff_eq.1 equal]
  · rw [Number.eq_of_beq_unsigned h h' equal]
  · rw [beq_iff_eq.1 equal]

namespace Builder

/-- `b'` is a later state of `b`. The first `k` labels are as they were. -/
structure Extends (k : Nat) (b b' : Builder) : Prop where
  code : ∀ (ip : Nat) ins, b.code[ip]? = some ins → b'.code[ip]? = some ins
  pending : ∀ jump ∈ b.pending, jump ∈ b'.pending
  later : ∀ jump ∈ b'.pending, jump ∈ b.pending ∨ b.code.size ≤ jump.1
  placed : ∀ (l : Nat) address, b.labels[l]? = some (some address) → b'.labels[l]? = some (some address)
  labels : b.labels.size ≤ b'.labels.size
  kept : ∀ l : Nat, l < k → b'.labels[l]? = b.labels[l]?
  constants : ∀ (i : Nat) v, b.constants[i]? = some v → b'.constants[i]? = some v

namespace Extends

variable {k : Nat} {b b' b'' : Builder}

theorem refl (k : Nat) (b : Builder) : Extends k b b :=
  ⟨fun _ _ h => h, fun _ h => h, fun _ h => Or.inl h, fun _ _ h => h, Nat.le_refl _, fun _ _ => rfl,
    fun _ _ h => h⟩

theorem size (h : Extends k b b') : b.code.size ≤ b'.code.size := by
  cases last : b.code.size with
  | zero => exact Nat.zero_le _
  | succ n =>
    have found := h.code n _ (Array.getElem?_eq_getElem (by omega))
    have := (Array.getElem?_eq_some_iff.1 found).1
    omega

theorem trans (h : Extends k b b') (h' : Extends k b' b'') : Extends k b b'' where
  code ip ins found := h'.code ip ins (h.code ip ins found)
  pending jump mem := h'.pending jump (h.pending jump mem)
  later jump mem := by
    have := h.size
    rcases h'.later jump mem with mem | new
    · exact h.later jump mem
    · exact Or.inr (by omega)
  placed l address found := h'.placed l address (h.placed l address found)
  labels := Nat.le_trans h.labels h'.labels
  kept l low := (h'.kept l low).trans (h.kept l low)
  constants i v found := h'.constants i v (h.constants i v found)

theorem weaken {j : Nat} (h : Extends k b b') (le : j ≤ k) : Extends j b b' :=
  { h with kept := fun l low => h.kept l (Nat.lt_of_lt_of_le low le) }

/-- One more instruction, perhaps a jump. -/
theorem emit (k : Nat) (b : Builder) (ins : Instruction) (line : Nat) {pending : Array (Nat × Nat)}
    (old : ∀ jump ∈ b.pending, jump ∈ pending)
    (new : ∀ jump ∈ pending, jump ∈ b.pending ∨ jump.1 = b.code.size) :
    Extends k b { b.emit ins line with pending } where
  code ip ins found := by
    have := (Array.getElem?_eq_some_iff.1 found).1
    simp only [Builder.emit, Array.getElem?_push]
    rw [if_neg (by omega)]
    exact found
  pending := old
  later jump mem := (new jump mem).imp_right fun same => Nat.le_of_eq same.symm
  placed _ _ found := found
  labels := Nat.le_refl _
  kept _ _ := rfl
  constants _ _ found := found

theorem newLabel (b : Builder) : Extends b.labels.size b b.newLabel.2 where
  code _ _ found := found
  pending _ mem := mem
  later _ mem := Or.inl mem
  placed l address found := by
    have := (Array.getElem?_eq_some_iff.1 found).1
    simp only [Builder.newLabel, Array.getElem?_push]
    rw [if_neg (by omega)]
    exact found
  labels := by simp [Builder.newLabel]
  kept l low := by
    simp only [Builder.newLabel, Array.getElem?_push]
    rw [if_neg (by omega)]
  constants _ _ found := found

/-- An open label gets its place. -/
theorem placeLabel {l : Nat} (high : k ≤ l) (awaited : b.labels[l]? = some none) :
    Extends k b (b.placeLabel l) where
  code _ _ found := found
  pending _ mem := mem
  later _ mem := Or.inl mem
  placed j address found := by
    simp only [Builder.placeLabel, Array.getElem?_setIfInBounds]
    split
    · rename_i same
      subst same
      rw [awaited] at found
      cases found
    · exact found
  labels := by simp [Builder.placeLabel]
  kept j low := by
    simp only [Builder.placeLabel, Array.getElem?_setIfInBounds]
    rw [if_neg (by omega)]
  constants _ _ found := found

end Extends

/-- The unit `u` is finished from `b`. -/
structure Linked (b : Builder) (u : CodeUnit) : Prop where
  small : b.code.size ≤ maxOperand
  code : ∀ ip : Nat, u.code[ip]? = (b.code[ip]?).map (b.patched ip · b.pending.toList)
  settled : ∀ jump ∈ b.pending, (b.labelAddress? jump.2).isSome
  constants : u.constants = b.constants
  places : ∀ (l : Nat) address, b.labels[l]? = some (some address) → address ≤ b.code.size

namespace Linked

variable {b : Builder} {u : CodeUnit} {ip : Nat} {ins : Instruction} {op : Opcode}

theorem plain (h : b.Linked u) (found : b.code[ip]? = some ins) (opcode : ins.opcode? = some op)
    (stays : ∀ l, (ip, l) ∉ b.pending) : u.Holds ip op ins.a.toNat ins.b.toNat := by
  refine ⟨ins, ?_, opcode, rfl, rfl⟩
  rw [h.code, found, Option.map_some, patched]
  cases jump : jumpTo? ip b.pending.toList with
  | none => rfl
  | some l => exact absurd (Array.mem_toList_iff.1 (mem_of_jumpTo? jump)) (stays l)

theorem jump (h : b.Linked u) (found : b.code[ip]? = some ins) (opcode : ins.opcode? = some op)
    {l address : Nat} (mem : (ip, l) ∈ b.pending) (single : ∀ l', (ip, l') ∈ b.pending → l' = l)
    (place : b.labels[l]? = some (some address)) : u.Holds ip op address ins.b.toNat := by
  have small := h.small
  have low := h.places l address place
  simp only [maxOperand] at small
  refine ⟨{ ins with a := address.toUInt16 }, ?_, opcode, ?_, rfl⟩
  · obtain ⟨l', found'⟩ := Option.isSome_iff_exists.1 (jumpTo?_isSome (Array.mem_toList_iff.2 mem))
    have same := single l' (Array.mem_toList_iff.1 (mem_of_jumpTo? found'))
    subst same
    rw [h.code, found, Option.map_some, patched, found']
    simp [labelAddress?, place]
  · simp only [Nat.toUInt16_eq, UInt16.toNat_ofNat']
    omega

/-- The label of a jump has a place. -/
theorem place (h : b.Linked u) {l : Nat} (mem : (ip, l) ∈ b.pending) :
    ∃ address, b.labels[l]? = some (some address) := by
  have found := h.settled (ip, l) mem
  simpa [labelAddress?, Option.isSome_iff_exists, Option.join_eq_some_iff] using found

end Linked

end Builder

namespace Compiler

variable {s t : State} {k : Nat}

/-- The address of the next instruction. -/
def State.ip (s : State) : Nat := s.builder.code.size

/-- What holds of every state of the compiler while it works on a chunk without functions. -/
structure State.Ready (s : State) : Prop where
  pending : ∀ jump ∈ s.builder.pending, jump.1 < s.builder.code.size
  places : ∀ (l : Nat) address, s.builder.labels[l]? = some (some address) →
    address ≤ s.builder.code.size
  constants : ∀ v ∈ s.builder.constants, v.IsExact
  enclosing : s.enclosing = []

/-- The compiler has gone from `s` to `t`, and the first `k` labels are as they were. -/
structure Emitted (k : Nat) (s t : State) : Prop where
  builder : s.builder.Extends k t.builder
  ready : t.Ready

namespace Emitted

theorem refl (ready : s.Ready) : Emitted k s s := ⟨.refl _ _, ready⟩

theorem trans {r : State} (h : Emitted k r s) (h' : Emitted k s t) : Emitted k r t :=
  ⟨h.builder.trans h'.builder, h'.ready⟩

theorem weaken {j : Nat} (h : Emitted k s t) (le : j ≤ k) : Emitted j s t :=
  ⟨h.builder.weaken le, h.ready⟩

/-- What is a part of the unit's builder later is a part of it already. -/
theorem within (h : Emitted k s t) {last : Builder} (within : t.builder.Extends 0 last) :
    s.builder.Extends 0 last :=
  (h.builder.weaken (Nat.zero_le k)).trans within

end Emitted

/-! ## Labels -/

/-- The state with one label more. -/
def State.labelled (s : State) : State := { s with builder := s.builder.newLabel.2 }

/-- The state with a label in front of the next instruction. -/
def State.placed (s : State) (l : Nat) : State := { s with builder := s.builder.placeLabel l }

/-- The label has no place yet. -/
def State.Awaits (s : State) (l : Nat) : Prop := s.builder.labels[l]? = some none

theorem size_labelled (s : State) : s.labelled.builder.labels.size = s.builder.labels.size + 1 :=
  Array.size_push ..

theorem awaits_labelled (s : State) : s.labelled.Awaits s.builder.labels.size := by
  simp [State.Awaits, State.labelled, Builder.newLabel]

theorem emitted_labelled (ready : s.Ready) : Emitted s.builder.labels.size s s.labelled := by
  refine ⟨.newLabel s.builder, ready.pending, fun l address found => ?_, ready.constants,
    ready.enclosing⟩
  simp only [State.labelled, Builder.newLabel, Array.getElem?_push] at found
  split at found
  · cases found
  · exact ready.places l address found

theorem emitted_placed (ready : s.Ready) {l : Nat} (high : k ≤ l) (awaits : s.Awaits l) :
    Emitted k s (s.placed l) := by
  refine ⟨.placeLabel high awaits, ready.pending, fun j address found => ?_, ready.constants,
    ready.enclosing⟩
  simp only [State.placed, Builder.placeLabel, Array.getElem?_setIfInBounds] at found
  split at found
  · split at found
    · cases found
      exact Nat.le_refl _
    · cases found
  · exact ready.places j address found

namespace State.Awaits

variable {l : Nat}

theorem inside (h : s.Awaits l) : l < s.builder.labels.size := (Array.getElem?_eq_some_iff.1 h).1

theorem after (h : s.Awaits l) (emitted : Emitted s.builder.labels.size s t) : t.Awaits l := by
  rw [State.Awaits, emitted.builder.kept l h.inside]
  exact h

theorem labelled (h : s.Awaits l) : s.labelled.Awaits l := by
  have := h.inside
  simp only [State.Awaits, State.labelled, Builder.newLabel, Array.getElem?_push]
  rw [if_neg (by omega)]
  exact h

theorem placed (h : s.Awaits l) {j : Nat} (differ : j ≠ l) : (s.placed j).Awaits l := by
  simp only [State.Awaits, State.placed, Builder.placeLabel, Array.getElem?_setIfInBounds]
  rw [if_neg differ]
  exact h

end State.Awaits

/-! ## Pieces of code -/

/-- A unit with the builder that it was finished from. -/
structure Finished where
  builder : Builder
  unit : CodeUnit
  linked : builder.Linked unit

/-- The address of a label. -/
def Finished.Places (F : Finished) (l address : Nat) : Prop :=
  F.builder.labels[l]? = some (some address)

theorem Finished.Places.unique {F : Finished} {l a b : Nat} (h : F.Places l a) (h' : F.Places l b) :
    a = b :=
  Option.some.inj (Option.some.inj (Eq.trans (Eq.symm h) h'))

/-- If `c` succeeds from `s`, it leaves the first `k` labels alone, and `Q` holds for every unit that
has the new code in it. -/
def Adds {α : Type} (k : Nat) (c : Compiler α) (s : State) (Q : α → State → Finished → Prop) : Prop :=
  s.Ready → k ≤ s.builder.labels.size → Leads (fun _ => True) c s fun a t =>
    Emitted k s t ∧ ∀ F : Finished, t.builder.Extends 0 F.builder → Q a t F

namespace Adds

variable {α β : Type} {P Q : α → State → Finished → Prop}

theorem pure {a : α} (h : ∀ F, Q a s F) : Adds k (Pure.pure a) s Q :=
  fun ready _ => Leads.pure ⟨.refl ready, fun F _ => h F⟩

theorem throw {e : CompileError} : Adds k (MonadExcept.throw e : Compiler α) s Q :=
  fun _ _ => Leads.throw trivial

/-- The last of several actions. -/
theorem mono {c : Compiler α} (h : Adds s.builder.labels.size c s P)
    (weaken : ∀ a t F, P a t F → Q a t F) : Adds k c s Q := by
  intro ready low
  refine (h ready (Nat.le_refl _)).mono ?_
  rintro a t ⟨emitted, holds⟩
  exact ⟨emitted.weaken low, fun F within => weaken a t F (holds F within)⟩

/-- One action after another. What the first one ensures is at hand for the unit in the end. -/
theorem seq {c : Compiler α} {f : α → Compiler β} {R : β → State → Finished → Prop}
    (first : Adds s.builder.labels.size c s P)
    (next : ∀ a t, Emitted s.builder.labels.size s t →
      Adds k (f a) t fun b r F => P a t F → R b r F) : Adds k (c >>= f) s R := by
  intro ready low
  refine (first ready (Nat.le_refl _)).seq ?_
  rintro a t ⟨emitted, holds⟩
  refine (next a t emitted emitted.ready (low.trans emitted.builder.labels)).mono ?_
  rintro b r ⟨emitted', holds'⟩
  exact ⟨(emitted.weaken low).trans emitted', fun F within =>
    holds' F within (holds F (emitted'.within within))⟩

/-- Reading the state. -/
theorem read {f : State → Compiler α} (h : Adds k (f s) s Q) :
    Adds k (MonadState.get >>= f) s Q := h

theorem line {c : Compiler α} {line : Nat} (h : Adds k c { s with line } Q) :
    Adds k (do setLine line; c) s Q := by
  intro ready low
  refine Leads.bind (Leads.modify ?_)
  refine (h ⟨ready.pending, ready.places, ready.constants, ready.enclosing⟩ low).mono ?_
  rintro a t ⟨emitted, holds⟩
  exact ⟨⟨emitted.builder, emitted.ready⟩, holds⟩

/-- A change of the state that leaves the code alone. -/
theorem turn {f : State → State} {Q : PUnit → State → Finished → Prop}
    (builder : (f s).builder = s.builder) (enclosing : (f s).enclosing = s.enclosing)
    (h : ∀ F, Q ⟨⟩ (f s) F) : Adds k (modify f) s Q := by
  intro ready low
  refine Leads.modify ⟨⟨?_, ?_⟩, fun F _ => h F⟩
  · rw [builder]
    exact .refl k _
  · refine ⟨?_, ?_, ?_, enclosing.trans ready.enclosing⟩ <;> rw [builder]
    · exact ready.pending
    · exact ready.places
    · exact ready.constants

theorem label {f : Nat → Compiler α} (h : Adds k (f s.builder.labels.size) s.labelled Q) :
    Adds k (newLabel >>= f) s Q := by
  intro ready low
  have emitted := emitted_labelled ready
  refine (h emitted.ready (low.trans emitted.builder.labels)).mono ?_
  rintro a t ⟨emitted', holds⟩
  exact ⟨(emitted.weaken low).trans emitted', holds⟩

/-- Placing a label that nobody before `s` knows of. -/
theorem place {l : Nat} {c : Compiler α} (high : k ≤ l) (awaits : s.Awaits l)
    (next : Adds k c (s.placed l) fun a t F => F.Places l s.ip → Q a t F) :
    Adds k (do placeLabel l; c) s Q := by
  intro ready low
  have emitted := emitted_placed ready high awaits
  refine (next emitted.ready (low.trans emitted.builder.labels)).mono ?_
  rintro a t ⟨emitted', holds⟩
  refine ⟨emitted.trans emitted', fun F within => holds F within ?_⟩
  refine (emitted'.within within).placed l s.ip ?_
  simp [State.placed, Builder.placeLabel, State.ip, awaits.inside]

theorem place_last {l : Nat} {Q : PUnit → State → Finished → Prop} (high : k ≤ l)
    (awaits : s.Awaits l) (next : ∀ F : Finished, F.Places l s.ip → Q ⟨⟩ (s.placed l) F) :
    Adds k (placeLabel l) s Q := by
  have placed : Adds k (do placeLabel l; Pure.pure ⟨⟩) s Q := place high awaits (pure next)
  exact placed

end Adds

/-! ## Instructions -/

/-- `t` is `s` after one instruction of the unit. -/
structure Emits (F : Finished) (s t : State) (op : Opcode) (a b : Nat) : Prop where
  locals : t.locals = s.locals
  depth : (t.depth : Int) = s.depth + Instruction.stackEffect op a b
  ip : t.ip = s.ip + 1
  holds : F.unit.Holds s.ip op a b

theorem apply_leads_effect (op : Opcode) (a b : Nat) (ins : Instruction) :
    Leads (fun _ => True) (apply op a b ins) s fun _ t => ∃ depth closed : Nat,
      t = { s with depth, closed } ∧ (depth : Int) = s.depth + Instruction.stackEffect op a b := by
  refine Leads.bind (Leads.get ?_)
  refine Leads.ite (fun _ => Leads.throw trivial) fun balanced => Leads.set ⟨_, _, rfl, ?_⟩
  omega

theorem emit_adds (op : Opcode) (a b : Nat) :
    Adds k (emit op a b) s fun _ t F => Emits F s t op a b := by
  intro ready low
  unfold emit
  refine Leads.ite (fun _ => Leads.bind (Leads.throw trivial)) fun small => ?_
  refine Leads.ite (fun _ => Leads.bind (Leads.throw trivial)) fun small' => ?_
  have fit : (Instruction.make op a.toUInt16 b.toUInt8).a.toNat = a := by
    simp [Instruction.make]
    omega
  have fit' : (Instruction.make op a.toUInt16 b.toUInt8).b.toNat = b := by
    simp [Instruction.make]
    omega
  refine (apply_leads_effect op a b _).seq ?_
  rintro - t ⟨depth, closed, rfl, balance⟩
  refine Leads.modify ⟨⟨.emit k _ _ _ (fun _ mem => mem) fun _ mem => Or.inl mem, ?_⟩,
    fun F within => ⟨rfl, balance, by simp [State.ip, Builder.emit], ?_⟩⟩
  · refine ⟨fun jump mem => ?_, fun l address found => ?_, ready.constants, ready.enclosing⟩
    · have := ready.pending jump mem
      simp only [Builder.emit, Array.size_push]
      omega
    · have := ready.places l address found
      simp only [Builder.emit, Array.size_push]
      omega
  · have here := within.code s.ip (.make op a.toUInt16 b.toUInt8) (by simp [State.ip, Builder.emit])
    have holds := F.linked.plain here (Instruction.opcode?_make ..) fun l mem => by
      rcases within.later _ mem with mem | new
      · exact absurd (ready.pending _ mem) (Nat.lt_irrefl _)
      · simp only [State.ip, Builder.emit, Array.size_push] at new
        omega
    rwa [fit, fit'] at holds

theorem emitJump_adds (op : Opcode) (peek : Bool) (l : Nat)
    (effect : ∀ a b, Instruction.stackEffect op a b = Instruction.stackEffect op 0 b) :
    Adds k (emitJump op peek l) s fun _ t F =>
      ∃ address, F.Places l address ∧ Emits F s t op address (if peek then 1 else 0) := by
  intro ready low
  unfold emitJump
  refine (apply_leads_effect op 0 _ _).seq ?_
  rintro - t ⟨depth, closed, rfl, balance⟩
  refine Leads.modify ⟨⟨.emit k _ _ _ (fun _ mem => ?_) fun jump mem => ?_, ?_⟩, fun F within => ?_⟩
  · exact Array.mem_push_of_mem _ mem
  · rcases Array.mem_push.1 mem with mem | rfl
    · exact Or.inl mem
    · exact Or.inr rfl
  · refine ⟨fun jump mem => ?_, fun l address found => ?_, ready.constants, ready.enclosing⟩
    · simp only [Builder.emitJump, Builder.emit, Array.size_push]
      rcases Array.mem_push.1 mem with mem | rfl
      · have := ready.pending jump mem
        omega
      · simp
    · have := ready.places l address found
      simp only [Builder.emitJump, Builder.emit, Array.size_push]
      omega
  · have here := within.code s.ip (.make op 0 (if peek then 1 else 0))
      (by simp [State.ip, Builder.emitJump, Builder.emit])
    have mem := within.pending (s.ip, l) (by simp [State.ip, Builder.emitJump])
    obtain ⟨address, place⟩ := F.linked.place mem
    refine ⟨address, place, rfl, by rw [effect]; exact balance,
      by simp [State.ip, Builder.emitJump, Builder.emit], ?_⟩
    have holds := F.linked.jump here (Instruction.opcode?_make ..) mem (fun l' mem' => ?_) place
    · cases peek <;> exact holds
    · rcases within.later _ mem' with mem' | new
      · rcases Array.mem_push.1 mem' with mem' | same
        · exact absurd (ready.pending _ mem') (Nat.lt_irrefl _)
        · exact (Prod.mk.inj same).2
      · simp only [State.ip, Builder.emitJump, Builder.emit, Array.size_push] at new
        omega

/-- A constant is found again under the index that it was given. -/
theorem addConstant_adds {v : Value} (isExact : v.IsExact) :
    Adds k (addConstant v) s fun i t F =>
      (∃ builder, t = { s with builder } ∧ builder.code = s.builder.code) ∧
        F.unit.constants[i]? = some v := by
  intro ready low
  refine Leads.bind (Leads.get (Leads.bind (Leads.lift ?_ fun _ _ => trivial)))
  rintro ⟨i, builder⟩ added
  unfold Builder.addConstant at added
  refine Leads.bind (Leads.set (Leads.pure ?_))
  cases found : s.builder.constants.findIdx? (· == v) with
  | some j =>
    rw [found] at added
    cases added
    obtain ⟨inside, equal, -⟩ := Array.findIdx?_eq_some_iff_getElem.1 found
    have same := Value.eq_of_beq_exact (ready.constants _ (Array.getElem_mem inside)) isExact equal
    refine ⟨⟨.refl k _, ready⟩, fun F within => ⟨⟨s.builder, rfl, rfl⟩, ?_⟩⟩
    rw [F.linked.constants]
    exact within.constants i v (by rw [Array.getElem?_eq_getElem inside, same])
  | none =>
    rw [found] at added
    dsimp only at added
    split at added
    · cases added
      refine ⟨⟨⟨fun _ _ h => h, fun _ h => h, fun _ h => Or.inl h, fun _ _ h => h, Nat.le_refl _,
        fun _ _ => rfl, fun j w old => ?_⟩, ready.pending, ready.places, fun w mem => ?_,
        ready.enclosing⟩, fun F within => ⟨⟨_, rfl, rfl⟩, ?_⟩⟩
      · have := (Array.getElem?_eq_some_iff.1 old).1
        rw [Array.getElem?_push_lt this, ← Array.getElem?_eq_getElem this]
        exact old
      · rcases Array.mem_push.1 mem with mem | rfl
        · exact ready.constants w mem
        · exact isExact
      · rw [F.linked.constants]
        exact within.constants _ v (by simp)
    · cases added

end Compiler

end ScriptEngine
