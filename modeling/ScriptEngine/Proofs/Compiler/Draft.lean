import ScriptEngine.Proofs.Compiler.Finish
import ScriptEngine.Proofs.Compiler.Outcome
import ScriptEngine.Proofs.Verifier.Layout

/-!
# Units in the making

While a function body is compiled, its builder holds code whose jumps have no addresses yet. A
`Sketch` records what the layout of the finished unit will be: the depths that every emitted
instruction is entered with, the depths at every label, and the numbers of upvalues of the nested
units. `Drafted` says that the code so far keeps to the sketch; it is preserved by everything a builder
does, and a finished draft is laid out (`Drafted.layout_finish`). An instruction must handle a multi-value
that the code before it may have left on top (`Sketch.Open`).
-/

namespace ScriptEngine

/-- The layout of a unit in the making. -/
structure Sketch where
  /-- The depths that the emitted instructions are entered with. -/
  depths : List Depths
  /-- The depths at a label. -/
  target : Nat → Depths
  /-- The number of upvalues that closures of a nested unit have. -/
  captured : Nat → Nat

/-- Labels with the depths that control comes to them with. -/
abbrev Marks := List (Nat × Depths)

namespace Builder

/-- The constants and the nested units so far, as those of a unit. -/
def draft (b : Builder) : CodeUnit where
  id := 0
  name := ""
  source := ""
  paramCount := b.paramCount
  isVararg := b.isVararg
  code := #[]
  lines := #[]
  constants := b.constants
  children := b.children.reverse

/-- A unit with a greater id than the others becomes the first of them. -/
theorem insertChild_greatest {u : CodeUnit} {units : List CodeUnit}
    (greatest : ∀ v ∈ units, v.id < u.id) : insertChild u units = u :: units := by
  cases units with
  | nil => rfl
  | cons v rest => rw [insertChild, if_pos (greatest v List.mem_cons_self)]

end Builder

/-- The code of `b` keeps to the sketch `g`, and the next instruction will be entered with `now`. Jumps
lead to labels that have a place or are still open; the labels in `passed` have one. -/
structure Drafted (b : Builder) (upvalues nextId : Nat) (now : Depths) (awaited passed : Marks)
    (g : Sketch) : Prop where
  size : g.depths.length = b.code.size
  start : (g.depths ++ [now])[0]? = some Depths.initial
  code : ∀ ip ins, b.code[ip]? = some ins → ∃ op d, ins.opcode? = some op ∧ g.depths[ip]? = some d ∧
    Legal b.draft upvalues g.captured op ins.a.toNat ins.b.toNat d ∧
    (op.continues = true →
      (g.depths ++ [now])[ip + 1]? = some (d.after op ins.a.toNat ins.b.toNat)) ∧
    (op.isJump = true → ∃ l, (ip, l) ∈ b.pending)
  jump : ∀ ip l, (ip, l) ∈ b.pending →
    ((∃ d, (l, d) ∈ awaited) ∨ ∃ address, b.labels[l]? = some (some address)) ∧
    ∃ ins op d, b.code[ip]? = some ins ∧ ins.opcode? = some op ∧ op.isJump = true ∧
      g.depths[ip]? = some d ∧ d.after op ins.a.toNat ins.b.toNat = g.target l
  placed : ∀ l address, b.labels[l]? = some (some address) →
    (g.depths ++ [now])[address]? = some (g.target l)
  awaited : ∀ m ∈ awaited, b.labels[m.1]? = some none ∧ g.target m.1 = m.2
  passed : ∀ m ∈ passed, (∃ address, b.labels[m.1]? = some (some address)) ∧ g.target m.1 = m.2
  tame : Tame b.code (g.depths[·]?)
  constants : ∀ v ∈ b.constants, v.isPlain = true
  nested : ∀ c ∈ b.children, c.id < nextId ∧ Layout (g.captured c.id) c

/-- The code so far may leave a multi-value on top. -/
def Sketch.Open (g : Sketch) (b : Builder) : Prop := Loose b.code (g.depths[·]?) b.code.size

/-- What a jump does to the depths does not depend on its address. -/
theorem Depths.after_jump {op : Opcode} (jump : op.isJump = true) (d : Depths) (a a' b : Nat) :
    d.after op a b = d.after op a' b := by
  cases op <;> simp_all [Opcode.isJump, Depths.after, Instruction.stackEffect,
    Instruction.closedEffect]

theorem Legal.jump {u : CodeUnit} {upvalues : Nat} {captured : Nat → Nat} {op : Opcode}
    (jump : op.isJump = true) {a b : Nat} {d : Depths} (a' : Nat)
    (h : Legal u upvalues captured op a b d) : Legal u upvalues captured op a' b d := by
  have operands := h.operands
  cases op <;> simp [Opcode.isJump] at jump <;>
    exact { operands, closed := h.closed, read := by simp, write := by simp, constant := by simp
            global := by simp, expand := by simp, release := by simp, upvalue := by simp
            nested := by simp }

namespace Drafted

variable {b : Builder} {upvalues nextId : Nat} {now : Depths} {awaited passed : Marks} {g : Sketch}

theorem label_lt (h : Drafted b upvalues nextId now awaited passed g) {m : Nat × Depths}
    (hm : m ∈ awaited) : m.1 < b.labels.size :=
  (Array.getElem?_eq_some_iff.1 (h.awaited m hm).1).1

theorem passed_lt (h : Drafted b upvalues nextId now awaited passed g) {m : Nat × Depths}
    (hm : m ∈ passed) : m.1 < b.labels.size := by
  obtain ⟨⟨address, found⟩, -⟩ := h.passed m hm
  exact (Array.getElem?_eq_some_iff.1 found).1

/-- The draft before the first instruction. -/
theorem initial (paramCount : Nat) (isVararg : Bool) (upvalues nextId : Nat) :
    Drafted { paramCount, isVararg } upvalues nextId .initial [] []
      ⟨[], fun _ => .initial, fun _ => 0⟩ where
  size := rfl
  start := rfl
  code := by simp
  jump := by simp
  placed := by simp
  awaited := by simp
  passed := by simp
  tame := by simp [Tame]
  constants := by simp
  nested := by simp

theorem not_open_initial (paramCount : Nat) (isVararg : Bool) :
    ¬(⟨[], fun _ => .initial, fun _ => 0⟩ : Sketch).Open { paramCount, isVararg } := by
  unfold Sketch.Open
  rintro ⟨⟩

/-- One more instruction, which is entered with the depths known so far. After one that does not go on
at the next address, those of what follows are free. -/
theorem push (h : Drafted b upvalues nextId now awaited passed g) {ins : Instruction} {op : Opcode}
    (opcode : ins.opcode? = some op)
    (legal : Legal b.draft upvalues g.captured op ins.a.toNat ins.b.toNat now)
    (handles : op.Handles ins.a.toNat ins.b.toNat now (g.Open b)) {now' : Depths}
    (next : op.continues = true → now' = now.after op ins.a.toNat ins.b.toNat) (line : Nat)
    {pending : Array (Nat × Nat)}
    (old : ∀ ip l, (ip, l) ∈ b.pending → (ip, l) ∈ pending)
    (new : ∀ ip l, (ip, l) ∈ pending → (ip, l) ∈ b.pending ∨ ip = b.code.size ∧ op.isJump = true ∧
      (l, now.after op ins.a.toNat ins.b.toNat) ∈ awaited ++ passed)
    (jumps : op.isJump = true → ∃ l, (b.code.size, l) ∈ pending) :
    Drafted { b.emit ins line with pending } upvalues nextId now' awaited passed
      { g with depths := g.depths ++ [now] } where
  size := by simp [Builder.emit, h.size]
  start := by
    have := h.start
    rw [List.getElem?_append_left (by simp)]
    exact this
  code := by
    intro ip ins' at_ip
    simp only [Builder.emit, Array.getElem?_push] at at_ip
    split at at_ip
    · rename_i here
      cases at_ip
      rw [here, ← h.size]
      refine ⟨op, now, opcode, by simp, legal, fun go => ?_, fun jump => ?_⟩
      · rw [← next go]
        simp
      · rw [h.size]
        exact jumps jump
    · obtain ⟨op', d, opcode', at_d, ok, go, jump⟩ := h.code ip ins' at_ip
      have bound := (Array.getElem?_eq_some_iff.1 at_ip).1
      have inside : ip < g.depths.length := by rw [h.size]; exact bound
      refine ⟨op', d, opcode', ?_, ok, fun hc => ?_, fun hj => ?_⟩
      · rw [List.getElem?_append_left inside]
        exact at_d
      · rw [List.getElem?_append_left (by simp; omega)]
        exact go hc
      · obtain ⟨l, hl⟩ := jump hj
        exact ⟨l, old ip l hl⟩
  jump := by
    intro ip l mem
    rcases new ip l mem with mem | ⟨rfl, jump, mark⟩
    · obtain ⟨settled, ins', op', d, at_ip, opcode', jump, at_d, depths⟩ := h.jump ip l mem
      have bound := (Array.getElem?_eq_some_iff.1 at_ip).1
      refine ⟨settled, ins', op', d, ?_, opcode', jump, ?_, depths⟩
      · simp only [Builder.emit]
        rw [Array.getElem?_push_lt bound, ← Array.getElem?_eq_getElem bound]
        exact at_ip
      · rw [List.getElem?_append_left (by rw [h.size]; exact bound)]
        exact at_d
    · refine ⟨?_, ins, op, now, by simp [Builder.emit], opcode, jump, by simp [← h.size], ?_⟩
      · rcases List.mem_append.1 mark with mark | mark
        · exact Or.inl ⟨_, mark⟩
        · exact Or.inr (h.passed _ mark).1
      · rcases List.mem_append.1 mark with mark | mark
        · exact (h.awaited _ mark).2.symm
        · exact (h.passed _ mark).2.symm
  placed := by
    intro l address found
    have := h.placed l address found
    have bound := (List.getElem?_eq_some_iff.1 this).1
    rw [List.getElem?_append_left bound]
    exact this
  awaited := h.awaited
  passed := h.passed
  tame := h.tame.push opcode h.size handles
  constants := h.constants
  nested := h.nested

/-- Whether a multi-value may be on top depends on the last instruction. -/
theorem open_emit (h : Drafted b upvalues nextId now awaited passed g) {ins : Instruction} {op : Opcode}
    (opcode : ins.opcode? = some op) {line : Nat} {pending : Array (Nat × Nat)}
    (loose : Sketch.Open { g with depths := g.depths ++ [now] } { b.emit ins line with pending }) :
    op.opens ins.a.toNat ins.b.toNat now.depth = true ∨ op = .popClosed ∧ g.Open b := by
  refine Loose.push_last opcode h.size ?_
  simpa [Sketch.Open, Builder.emit] using loose

/-- One more instruction that is no jump. -/
theorem emit (h : Drafted b upvalues nextId now awaited passed g) {ins : Instruction} {op : Opcode}
    (opcode : ins.opcode? = some op) (plain : op.isJump = false)
    (legal : Legal b.draft upvalues g.captured op ins.a.toNat ins.b.toNat now)
    (handles : op.Handles ins.a.toNat ins.b.toNat now (g.Open b)) {now' : Depths}
    (next : op.continues = true → now' = now.after op ins.a.toNat ins.b.toNat) (line : Nat) :
    Drafted (b.emit ins line) upvalues nextId now' awaited passed
      { g with depths := g.depths ++ [now] } :=
  h.push opcode legal handles next line (fun _ _ mem => mem) (fun _ _ mem => Or.inl mem)
    (fun jump => absurd jump (by simp [plain]))

/-- One more jump, to a label whose depths are those after it. -/
theorem emitJump (h : Drafted b upvalues nextId now awaited passed g) {op : Opcode} {peek : Bool}
    {l : Nat} (jump : op.isJump = true)
    (legal : Legal b.draft upvalues g.captured op 0 (if peek then 1 else 0) now)
    (firm : ¬g.Open b) (mark : (l, now.after op 0 (if peek then 1 else 0)) ∈ awaited ++ passed) {now' : Depths}
    (next : op.continues = true → now' = now.after op 0 (if peek then 1 else 0)) (line : Nat) :
    Drafted (b.emitJump op peek l line) upvalues nextId now' awaited passed
      { g with depths := g.depths ++ [now] } := by
  have operand : (Instruction.make op 0 (if peek then 1 else 0)).b.toNat = if peek then 1 else 0 := by
    cases peek <;> rfl
  have handles (x y : Nat) : op.Handles x y now (g.Open b) :=
    ⟨fun loose => absurd loose firm, by rintro rfl; cases jump⟩
  refine h.push (Instruction.opcode?_make ..)
    (by rw [operand]; exact legal) (handles _ _) (by rw [operand]; exact next) line
    (fun ip k mem => ?_) (fun ip k mem => ?_) (fun _ => ⟨l, ?_⟩)
  · exact Array.mem_push.2 (Or.inl mem)
  · rcases Array.mem_push.1 mem with mem | pair
    · exact Or.inl mem
    · obtain ⟨rfl, rfl⟩ := Prod.mk.inj pair
      exact Or.inr ⟨rfl, jump, by rw [operand]; exact mark⟩
  · exact Array.mem_push.2 (Or.inr rfl)

/-- A new label, for control that will come with depths `d`. -/
theorem newLabel (h : Drafted b upvalues nextId now awaited passed g) (d : Depths) :
    Drafted b.newLabel.2 upvalues nextId now ((b.labels.size, d) :: awaited) passed
      { g with target := fun l => if l = b.labels.size then d else g.target l } := by
  have kept : ∀ l, l < b.labels.size →
      (b.labels.push none)[l]? = b.labels[l]? := by
    intro l bound
    rw [Array.getElem?_push_lt bound, Array.getElem?_eq_getElem bound]
  have old : ∀ l, l < b.labels.size → (if l = b.labels.size then d else g.target l) = g.target l := by
    intro l bound
    rw [if_neg (by omega)]
  refine ⟨h.size, h.start, h.code, fun ip l mem => ?_, fun l address found => ?_, fun m hm => ?_,
    fun m hm => ?_, h.tame, h.constants, h.nested⟩
  · obtain ⟨settled, ins, op, e, at_ip, opcode, jump, at_e, depths⟩ := h.jump ip l mem
    rcases settled with ⟨e', mark⟩ | ⟨address, found⟩
    · have bound : l < b.labels.size := h.label_lt mark
      exact ⟨Or.inl ⟨e', List.mem_cons_of_mem _ mark⟩, ins, op, e, at_ip, opcode, jump, at_e,
        depths.trans (old l bound).symm⟩
    · have bound : l < b.labels.size := (Array.getElem?_eq_some_iff.1 found).1
      exact ⟨Or.inr ⟨address, by simp only [Builder.newLabel]; rw [kept l bound]; exact found⟩,
        ins, op, e, at_ip, opcode, jump, at_e,
        depths.trans (old l bound).symm⟩
  · simp only [Builder.newLabel] at found ⊢
    rw [Array.getElem?_push] at found
    split at found
    · cases found
    · have bound := (Array.getElem?_eq_some_iff.1 found).1
      rw [old l bound]
      exact h.placed l address found
  · simp only [Builder.newLabel]
    rcases List.mem_cons.1 hm with rfl | hm
    · simp
    · rw [kept m.1 (h.label_lt hm), old m.1 (h.label_lt hm)]
      exact h.awaited m hm
  · simp only [Builder.newLabel]
    rw [kept m.1 (h.passed_lt hm), old m.1 (h.passed_lt hm)]
    exact h.passed m hm

theorem newLabel_ne (h : Drafted b upvalues nextId now awaited passed g) {m : Nat × Depths}
    (hm : m ∈ awaited) : m.1 ≠ b.labels.size :=
  Nat.ne_of_lt (h.label_lt hm)

/-- An open label gets its place where control has the depths it was made for. -/
theorem placeLabel (h : Drafted b upvalues nextId now awaited passed g) {l : Nat}
    (mark : (l, now) ∈ awaited) {rest : Marks}
    (only : ∀ m, m ∈ rest ↔ m ∈ awaited ∧ m.1 ≠ l) :
    Drafted (b.placeLabel l) upvalues nextId now rest ((l, now) :: passed) g := by
  have bound := h.label_lt mark
  have target : g.target l = now := (h.awaited _ mark).2
  have here : (b.labels.setIfInBounds l (some b.code.size))[l]? = some (some b.code.size) := by
    simp [bound]
  have other : ∀ k, k ≠ l →
      (b.labels.setIfInBounds l (some b.code.size))[k]? = b.labels[k]? := by
    intro k ne
    exact Array.getElem?_setIfInBounds_ne (Ne.symm ne)
  refine ⟨h.size, h.start, h.code, fun ip k mem => ?_, fun k address found => ?_, fun m hm => ?_,
    fun m hm => ?_, h.tame, h.constants, h.nested⟩
  · obtain ⟨settled, rest'⟩ := h.jump ip k mem
    refine ⟨?_, rest'⟩
    by_cases same : k = l
    · exact Or.inr ⟨b.code.size, by rw [same]; exact here⟩
    · rcases settled with ⟨d, open'⟩ | ⟨address, found⟩
      · exact Or.inl ⟨d, (only _).2 ⟨open', same⟩⟩
      · exact Or.inr ⟨address, by simp only [Builder.placeLabel]; rw [other k same]; exact found⟩
  · simp only [Builder.placeLabel] at found
    by_cases same : k = l
    · subst same
      rw [here] at found
      cases found
      rw [target, ← h.size]
      simp
    · rw [other k same] at found
      exact h.placed k address found
  · obtain ⟨open', ne⟩ := (only m).1 hm
    simp only [Builder.placeLabel]
    rw [other m.1 ne]
    exact h.awaited m open'
  · simp only [Builder.placeLabel]
    rcases List.mem_cons.1 hm with rfl | hm
    · exact ⟨⟨_, here⟩, target⟩
    · obtain ⟨⟨address, found⟩, depths⟩ := h.passed m hm
      by_cases same : m.1 = l
      · exact ⟨⟨_, by rw [same]; exact here⟩, depths⟩
      · exact ⟨⟨address, by rw [other m.1 same]; exact found⟩, depths⟩

/-- A constant is found under the index that it is given, and those before it keep theirs. -/
theorem addConstant (h : Drafted b upvalues nextId now awaited passed g) {v : Value}
    (plain : v.isPlain = true) {i : Nat} {b' : Builder} (added : b.addConstant v = .ok (i, b')) :
    Drafted b' upvalues nextId now awaited passed g ∧ b'.isVararg = b.isVararg ∧ b'.code = b.code ∧
      ∃ w, b'.constants[i]? = some w ∧ (w == v ∨ w = v) := by
  unfold Builder.addConstant at added
  split at added
  · rename_i j found
    cases added
    obtain ⟨bound, same, -⟩ := Array.findIdx?_eq_some_iff_getElem.1 found
    exact ⟨h, rfl, rfl, b.constants[i], Array.getElem?_eq_getElem bound, Or.inl same⟩
  · split at added
    · cases added
      refine ⟨⟨h.size, h.start, fun ip ins at_ip => ?_, h.jump, h.placed, h.awaited, h.passed, h.tame,
        ?_, h.nested⟩, rfl, rfl, v, by simp, Or.inr rfl⟩
      case refine_2 =>
        intro w mem
        rcases Array.mem_push.1 mem with mem | rfl
        · exact h.constants w mem
        · exact plain
      obtain ⟨op, d, opcode, at_d, ok, rest⟩ := h.code ip ins at_ip
      refine ⟨op, d, opcode, at_d, ok.extend (fun j x found => ?_) (fun _ _ found => ⟨found, rfl⟩),
        rest⟩
      have bound := (Array.getElem?_eq_some_iff.1 found).1
      simp only [Builder.draft] at found bound ⊢
      rw [Array.getElem?_push_lt bound, ← Array.getElem?_eq_getElem bound]
      exact found
    · cases added

/-- A nested unit with the next id is added and found, and the others stay as they are. -/
theorem addChild (h : Drafted b upvalues nextId now awaited passed g) {u : CodeUnit}
    (fresh : nextId ≤ u.id) {cells nextId' : Nat} (layout : Layout cells u)
    (later : u.id < nextId') :
    Drafted (b.addChild u) upvalues nextId' now awaited passed
      { g with captured := fun id => if id = u.id then cells else g.captured id } ∧
    (b.addChild u).draft.child? u.id = some u := by
  have smaller : ∀ c ∈ b.children, c.id < u.id := fun c hc => by
    have := (h.nested c hc).1
    omega
  have added : (b.addChild u).children = u :: b.children := by
    unfold Builder.addChild
    cases same : b.children with
    | nil => rfl
    | cons c rest =>
      have := smaller c (by simp [same])
      simp [Builder.insertChild, this]
  have absent : b.children.reverse.find? (·.id == u.id) = none := by
    rw [List.find?_eq_none]
    intro c hc
    have := smaller c (List.mem_reverse.1 hc)
    simp
    omega
  have kept : ∀ id c, b.draft.child? id = some c →
      (b.addChild u).draft.child? id = some c ∧
        (if id = u.id then cells else g.captured id) = g.captured id := by
    intro id c found
    simp only [Builder.draft, CodeUnit.child?] at found ⊢
    have mem := List.mem_of_find?_eq_some found
    have named : c.id = id := by simpa using List.find?_some found
    have := smaller c (List.mem_reverse.1 mem)
    refine ⟨?_, if_neg (by omega)⟩
    rw [added, List.reverse_cons, List.find?_append, found]
    rfl
  refine ⟨⟨h.size, h.start, fun ip ins at_ip => ?_, h.jump, h.placed, h.awaited, h.passed, h.tame,
    h.constants, fun c hc => ?_⟩, ?_⟩
  · obtain ⟨op, d, opcode, at_d, ok, rest⟩ := h.code ip ins at_ip
    exact ⟨op, d, opcode, at_d, ok.extend (fun _ _ found => found) kept, rest⟩
  · rw [added] at hc
    rcases List.mem_cons.1 hc with rfl | hc
    · exact ⟨later, by simpa using layout⟩
    · have := smaller c hc
      refine ⟨by omega, ?_⟩
      show Layout (if c.id = u.id then cells else g.captured c.id) c
      rw [if_neg (by omega)]
      exact (h.nested c hc).2
  · simp only [Builder.draft, CodeUnit.child?]
    rw [added, List.reverse_cons, List.find?_append, absent]
    simp

/-- The label of a jump has a place if no label is open. -/
theorem settled (h : Drafted b upvalues nextId now [] passed g) :
    ∀ jump ∈ b.pending, (b.labelAddress? jump.2).isSome := by
  intro jump mem
  rcases (h.jump jump.1 jump.2 mem).1 with ⟨d, open'⟩ | ⟨address, found⟩
  · cases open'
  · simp [Builder.labelAddress?, found]

/-- Filling in addresses only changes jumps. -/
theorem patches (h : Drafted b upvalues nextId now awaited passed g) {code : Array Instruction}
    (words : ∀ ip : Nat, code[ip]? = (b.code[ip]?).map (b.patched ip · b.pending.toList)) :
    Patches b.code code := by
  intro ip ins' here
  rw [words ip, Option.map_eq_some_iff] at here
  obtain ⟨ins, found, rfl⟩ := here
  refine ⟨ins, found, ?_⟩
  cases place : Builder.jumpTo? ip b.pending.toList with
  | none => simp [Builder.patched, place]
  | some l =>
    obtain ⟨-, ins', op, d, found', opcode, jump, -⟩ :=
      h.jump ip l (Array.mem_toList_iff.1 (Builder.mem_of_jumpTo? place))
    rw [found, Option.some.injEq] at found'
    subst found'
    exact ⟨by simp only [Builder.patched, place]; rfl, Or.inr ⟨op, opcode, jump⟩⟩

/-- A unit without open labels whose last instruction returns is laid out when it is finished. -/
theorem layout_finish (h : Drafted b upvalues nextId now [] passed g) (firm : ¬g.Open b)
    (deep : 1 ≤ now.depth) (held : 0 ≤ now.closed) {line id : Nat} {name source : String} {u : CodeUnit}
    (finished : (b.emit (.make .ret 0 0) line).finish id name source = .ok u) :
    Layout upvalues u := by
  have ret : Legal b.draft upvalues g.captured .ret 0 0 now :=
    { operands := by simp [Opcode.operands]; omega, closed := held, read := by simp
      write := by simp, constant := by simp, global := by simp, expand := by simp
      release := by simp, upvalue := by simp, nested := by simp }
  have full := h.emit (Instruction.opcode?_make .ret 0 0) rfl ret
    ⟨fun loose => absurd loose firm, by simp⟩ (show Opcode.continues .ret = true → now = _ from fun go => absurd go Bool.false_ne_true) line
  obtain ⟨small, -, words, -, -, -, constants, children, -⟩ := Builder.finish_eq_ok finished
  have same : ∀ {op a c d}, Legal (b.emit (.make .ret 0 0) line).draft upvalues g.captured op a c d →
      Legal u upvalues g.captured op a c d := fun legal =>
    legal.extend (fun _ _ found => by rw [constants]; exact found)
      (fun id c found => ⟨by rw [CodeUnit.child?, children]; exact found, rfl⟩)
  have size := full.size
  -- labels were placed before the last instruction, so all of them lead to an instruction
  have target : ∀ l address, b.labels[l]? = some (some address) →
      (g.depths ++ [now])[address]? = some (g.target l) ∧ address.toUInt16.toNat = address := by
    intro l address found
    have here := h.placed l address found
    have bound := (List.getElem?_eq_some_iff.1 here).1
    have : (b.emit (.make .ret 0 0) line).code.size ≤ 65535 := small
    refine ⟨here, ?_⟩
    simp only [← size, Nat.toUInt16_eq, UInt16.toNat_ofNat'] at *
    omega
  refine .intro (fun ip => (g.depths ++ [now])[ip]?) g.captured h.start (fun ip d here => ?_)
    (full.tame.patch (full.patches words)) (by rw [constants]; exact h.constants) (fun c hc => ?_)
  · have bound : ip < (b.emit (.make .ret 0 0) line).code.size := by
      rw [← size]
      exact (List.getElem?_eq_some_iff.1 here).1
    have at_ip := Array.getElem?_eq_getElem bound
    obtain ⟨op, d', opcode, here', legal, next, jump⟩ := full.code ip _ at_ip
    rw [show (g.depths ++ [now])[ip]? = some d from here] at here'
    cases here'
    have word := words ip
    rw [at_ip, Option.map_some] at word
    have next' : op.continues = true →
        (g.depths ++ [now])[ip + 1]? = some (d.after op _ _) := fun go => by
      have found := next go
      have last : ip ≠ b.code.size := by
        intro e
        subst e
        simp [Builder.emit] at opcode
        subst opcode
        cases go
      rw [List.getElem?_append_left (by simp [Builder.emit] at bound; simp [h.size]; omega)] at found
      exact found
    cases place : Builder.jumpTo? ip b.pending.toList with
    | none =>
      have plain : op.isJump = false := by
        cases hj : op.isJump with
        | false => rfl
        | true =>
          obtain ⟨l, mem⟩ := jump hj
          have := Builder.jumpTo?_isSome (Array.mem_toList_iff.2 mem)
          rw [show Builder.jumpTo? ip (b.emit (.make .ret 0 0) line).pending.toList = none from place]
            at this
          cases this
      rw [show Builder.patched _ ip _ _ = _ by
        simp only [Builder.patched, Builder.emit, place]; rfl] at word
      refine ⟨_, op, word, opcode, same legal, fun q hq => ?_⟩
      rcases Verifier.mem_successors.1 hq with ⟨go, rfl⟩ | ⟨hj, -⟩
      · exact next' go
      · rw [plain] at hj
        cases hj
    | some l =>
      obtain ⟨-, ins', op', d', at_ip', opcode', hj, here', depths⟩ :=
        full.jump ip l (Array.mem_toList_iff.1 (Builder.mem_of_jumpTo? place))
      rw [at_ip] at at_ip'
      cases at_ip'
      rw [opcode] at opcode'
      cases opcode'
      rw [show (g.depths ++ [now])[ip]? = some d from here] at here'
      cases here'
      obtain ⟨address, found⟩ : ∃ address, b.labels[l]? = some (some address) := by
        have := h.settled (ip, l) (Array.mem_toList_iff.1 (Builder.mem_of_jumpTo? place))
        simpa [Builder.labelAddress?, Option.isSome_iff_exists, Option.join_eq_some_iff] using this
      obtain ⟨there, fits⟩ := target l address found
      rw [show Builder.patched _ ip _ _ = { (b.emit (.make .ret 0 0) line).code[ip] with
        a := address.toUInt16 } by
          simp [Builder.patched, Builder.emit, place, Builder.labelAddress?, found]] at word
      refine ⟨_, op, word, opcode, same (legal.jump hj _), fun q hq => ?_⟩
      rcases Verifier.mem_successors.1 hq with ⟨go, rfl⟩ | ⟨-, rfl⟩
      · rw [Depths.after_jump hj d _ (b.emit (.make .ret 0 0) line).code[ip].a.toNat]
        exact next' go
      · rw [Depths.after_jump hj d _ (b.emit (.make .ret 0 0) line).code[ip].a.toNat, depths]
        simp only [fits]
        exact there
  · rw [children] at hc
    exact (h.nested c (List.mem_reverse.1 hc)).2

end Drafted

end ScriptEngine
