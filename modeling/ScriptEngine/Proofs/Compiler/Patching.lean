import ScriptEngine.Proofs.Compiler.Finish

/-!
# Where jumps lead

A builder is used by one operation after the other: instructions and jumps are emitted, labels are made, placed
and placed again, in any order. What the finished unit holds is said of the ops alone (`Patched`): the words
in the order of their emission, and in every jump the length that the code had when its label was placed for
the last time. What a builder keeps of its ops is an invariant (`Keeps`) that every further operation
preserves, and finishing fails for no reason but the size of the code or a label without a place
(`finish_made`).
-/

namespace ScriptEngine

namespace Instruction

/-- The fields of a word do not overlap. -/
theorem word_toNat (i : Instruction) :
    i.word.toNat = i.tag.toNat * 2 ^ 24 + i.a.toNat * 2 ^ 8 + i.b.toNat := by
  have tag := i.tag.toNat_lt
  have a := i.a.toNat_lt
  have b := i.b.toNat_lt
  have low : i.a.toNat <<< 8 ||| i.b.toNat = i.a.toNat * 2 ^ 8 + i.b.toNat := by
    rw [← Nat.shiftLeft_add_eq_or_of_lt (by omega), Nat.shiftLeft_eq]
  have high : i.tag.toNat <<< 24 ||| (i.a.toNat * 2 ^ 8 + i.b.toNat) =
      i.tag.toNat * 2 ^ 24 + (i.a.toNat * 2 ^ 8 + i.b.toNat) := by
    rw [← Nat.shiftLeft_add_eq_or_of_lt (by omega), Nat.shiftLeft_eq]
  have tagWord : (i.tag.toUInt32 <<< 24).toNat = i.tag.toNat <<< 24 := by
    simp [Nat.shiftLeft_eq]
    omega
  have aWord : (i.a.toUInt32 <<< 8).toNat = i.a.toNat <<< 8 := by
    simp [Nat.shiftLeft_eq]
    omega
  rw [word, UInt32.toNat_or, UInt32.toNat_or, tagWord, aWord, UInt8.toNat_toUInt32, Nat.or_assoc, low, high]
  omega

end Instruction

namespace Builder

/-- What is done to a builder. -/
inductive Operation where
  | emit (ins : Instruction) (line : Nat)
  | jump (op : Opcode) (peek : Bool) (label line : Nat)
  | newLabel
  | place (label : Nat)
  | constant (v : Value)
  | child (u : CodeUnit)

/-- The builder after an operation. A constant for which there is no room is refused. -/
def act (b : Builder) : Operation → Builder
  | .emit ins line => b.emit ins line
  | .jump op peek label line => b.emitJump op peek label line
  | .newLabel => b.newLabel.2
  | .place label => b.placeLabel label
  | .constant v =>
    match b.addConstant v with
    | .ok (_, b) => b
    | .error _ => b
  | .child u => b.addChild u

/-- A new builder after some ops. -/
def made (paramCount : Nat) (isVararg : Bool) (ops : List Operation) : Builder :=
  ops.foldl act { paramCount, isVararg }

namespace Operation

/-- The word that an operation emits, and its line. -/
def word? : Operation → Option (Instruction × Nat)
  | emit ins line => some (ins, line)
  | jump op peek _ line => some (.make op 0 (if peek then 1 else 0), line)
  | _ => none

/-- The words that are emitted, with their lines. -/
def words (ops : List Operation) : List (Instruction × Nat) := ops.filterMap word?

/-- The label that an operation uses. -/
def label? : Operation → Option Nat
  | jump _ _ label _ => some label
  | place label => some label
  | _ => none

def isNewLabel : Operation → Bool
  | newLabel => true
  | _ => false

/-- The number of labels that are made. -/
def labelCount (ops : List Operation) : Nat := ops.countP isNewLabel

/-- Every label is made before it is used. -/
def Known (ops : List Operation) : Prop :=
  ∀ before (a : Operation) after l, ops = before ++ a :: after → a.label? = some l → l < labelCount before

/-- When the label is placed for the last time, the code has length `address`. -/
def LastPlaced (ops : List Operation) (l address : Nat) : Prop :=
  ∃ before after, ops = before ++ place l :: after ∧ place l ∉ after ∧ (words before).length = address

/-- The jump to the label is emitted when the code has length `ip`. -/
def JumpsAt (ops : List Operation) (ip l : Nat) : Prop :=
  ∃ before op peek line after, ops = before ++ jump op peek l line :: after ∧ (words before).length = ip

/-- The unit holds the emitted words in order, and each jump leads to where its label was placed last. -/
structure Patched (ops : List Operation) (u : CodeUnit) : Prop where
  size : u.code.size = (words ops).length
  lines : u.lines.toList = (words ops).map Prod.snd
  others : ∀ before ins line after, ops = before ++ emit ins line :: after →
    u.code[(words before).length]? = some ins
  jumps : ∀ before op peek l line after, ops = before ++ jump op peek l line :: after →
    ∃ ins address, u.code[(words before).length]? = some ins ∧ LastPlaced ops l address ∧
      address ≤ maxOperand ∧ ins.opcode? = some op ∧ ins.a.toNat = address ∧
      ins.word.toNat = op.byte.toNat * 2 ^ 24 + address * 2 ^ 8 + if peek then 1 else 0

theorem words_append (xs ys : List Operation) : words (xs ++ ys) = words xs ++ words ys :=
  List.filterMap_append ..

variable {ops before after : List Operation} {a : Operation} {l ip address : Nat}

/-- What is there before the last operation. -/
theorem Known.init (known : Known (ops ++ [a])) : Known ops :=
  fun before a' after l split => known before a' (after ++ [a]) l (by simp [split])

theorem known_nil : Known [] := by
  intro before o after l split
  simp at split

/-- A place in a list that is extended by one operation. -/
theorem split_append {before after : List Operation} {c : Operation}
    (split : ops ++ [a] = before ++ c :: after) :
    (after = [] ∧ c = a ∧ before = ops) ∨ ∃ init, after = init ++ [a] ∧ ops = before ++ c :: init := by
  rcases List.eq_nil_or_concat after with rfl | ⟨init, last, rfl⟩
  · left
    obtain ⟨rfl, same⟩ := List.append_inj' split rfl
    exact ⟨rfl, (List.cons.inj same).1.symm, rfl⟩
  · right
    rw [List.concat_eq_append, ← List.cons_append, ← List.append_assoc] at split
    obtain ⟨rfl, same⟩ := List.append_inj' split rfl
    exact ⟨init, by rw [List.concat_eq_append, (List.cons.inj same).1], rfl⟩

theorem Known.append {o : Operation} (known : Known ops) (made : ∀ l, o.label? = some l → l < labelCount ops) :
    Known (ops ++ [o]) := by
  intro before o' after l split used
  rcases split_append split with ⟨-, rfl, rfl⟩ | ⟨init, -, split⟩
  · exact made l used
  · exact known before o' init l split used

theorem LastPlaced.mem (h : LastPlaced ops l address) : place l ∈ ops := by
  obtain ⟨before, after, rfl, -, -⟩ := h
  simp

/-- No label is placed behind the code. -/
theorem LastPlaced.le_length (h : LastPlaced ops l address) : address ≤ (words ops).length := by
  obtain ⟨before, after, rfl, -, rfl⟩ := h
  simp [words_append]

/-- Any other operation leaves the label where it is. -/
theorem lastPlaced_append (other : a ≠ place l) :
    LastPlaced (ops ++ [a]) l address ↔ LastPlaced ops l address := by
  constructor
  · rintro ⟨before, after, split, last, length⟩
    rcases split_append split with ⟨-, same, -⟩ | ⟨init, rfl, rfl⟩
    · exact absurd same.symm other
    · exact ⟨before, init, rfl, fun mem => last (List.mem_append_left _ mem), length⟩
  · rintro ⟨before, after, rfl, last, length⟩
    exact ⟨before, after ++ [a], by simp, by simp [last, Ne.symm other], length⟩

theorem lastPlaced_place :
    LastPlaced (ops ++ [place l]) l address ↔ (words ops).length = address := by
  constructor
  · rintro ⟨before, after, split, last, length⟩
    rcases split_append split with ⟨-, -, rfl⟩ | ⟨init, rfl, rfl⟩
    · exact length
    · simp at last
  · exact fun length => ⟨ops, [], rfl, by simp, length⟩

theorem jumpsAt_append (other : ∀ op peek line, a ≠ jump op peek l line) :
    JumpsAt (ops ++ [a]) ip l ↔ JumpsAt ops ip l := by
  constructor
  · rintro ⟨before, op, peek, line, after, split, length⟩
    rcases split_append split with ⟨-, same, -⟩ | ⟨init, rfl, rfl⟩
    · exact absurd same.symm (other op peek line)
    · exact ⟨before, op, peek, line, init, rfl, length⟩
  · rintro ⟨before, op, peek, line, after, rfl, length⟩
    exact ⟨before, op, peek, line, after ++ [a], by simp, length⟩

theorem jumpsAt_jump (op : Opcode) (peek : Bool) (line : Nat) :
    JumpsAt (ops ++ [jump op peek l line]) ip l ↔ JumpsAt ops ip l ∨ (words ops).length = ip := by
  constructor
  · rintro ⟨before, op', peek', line', after, split, length⟩
    rcases split_append split with ⟨-, -, rfl⟩ | ⟨init, rfl, rfl⟩
    · exact Or.inr length
    · exact Or.inl ⟨before, op', peek', line', init, rfl, length⟩
  · rintro (⟨before, op', peek', line', after, rfl, length⟩ | length)
    · exact ⟨before, op', peek', line', after ++ [jump op peek l line], by simp, length⟩
    · exact ⟨ops, op, peek, line, [], rfl, length⟩

/-- A label that is placed is placed for the last time. -/
theorem exists_lastPlaced (mem : place l ∈ ops) : ∃ address, LastPlaced ops l address := by
  induction ops using List.reverseRecOn with
  | nil => cases mem
  | append_singleton ops o ih =>
    by_cases last : o = place l
    · subst last
      exact ⟨_, lastPlaced_place.2 rfl⟩
    · rw [List.mem_append, List.mem_singleton] at mem
      obtain ⟨address, placed⟩ := ih (mem.resolve_right (Ne.symm last))
      exact ⟨address, (lastPlaced_append last).2 placed⟩

end Operation

open Builder.Operation

/-- What a builder keeps of the ops that made it. -/
structure Keeps (ops : List Operation) (b : Builder) : Prop where
  code : b.code.toList = (words ops).map Prod.fst
  lines : b.lines.toList = (words ops).map Prod.snd
  labels : b.labels.size = labelCount ops
  placed : ∀ l address, b.labels[l]? = some (some address) ↔ LastPlaced ops l address
  pending : ∀ ip l, (ip, l) ∈ b.pending.toList ↔ JumpsAt ops ip l

namespace Keeps

variable {ops : List Operation} {b : Builder} {l : Nat}

theorem start (paramCount : Nat) (isVararg : Bool) : Keeps [] { paramCount, isVararg } where
  code := rfl
  lines := rfl
  labels := rfl
  placed := by simp [LastPlaced]
  pending := by simp [JumpsAt]

theorem size (h : Keeps ops b) : b.code.size = (words ops).length := by
  rw [← Array.length_toList, h.code, List.length_map]

/-- An operation that does not concern code and labels. -/
theorem aside (h : Keeps ops b) {a : Operation} {b' : Builder} (silent : a.word? = none)
    (unlabelled : a.label? = none) (noLabel : a.isNewLabel = false) (code : b'.code = b.code)
    (lines : b'.lines = b.lines) (labels : b'.labels = b.labels) (pending : b'.pending = b.pending) :
    Keeps (ops ++ [a]) b' where
  code := by simp [code, h.code, words, silent]
  lines := by simp [lines, h.lines, words, silent]
  labels := by simp [labels, h.labels, labelCount, noLabel]
  placed l address := by
    rw [labels, h.placed, lastPlaced_append]
    rintro rfl
    cases unlabelled
  pending ip l := by
    rw [pending, h.pending, jumpsAt_append]
    rintro op peek line rfl
    cases unlabelled

theorem emit (h : Keeps ops b) (ins : Instruction) (line : Nat) :
    Keeps (ops ++ [Operation.emit ins line]) (b.emit ins line) where
  code := by simp [Builder.emit, h.code, words, word?]
  lines := by simp [Builder.emit, h.lines, words, word?]
  labels := by simp [Builder.emit, h.labels, labelCount, isNewLabel]
  placed l address := by
    rw [lastPlaced_append (by simp)]
    exact h.placed l address
  pending ip l := by
    rw [jumpsAt_append (by simp)]
    exact h.pending ip l

theorem jump (h : Keeps ops b) (op : Opcode) (peek : Bool) (target line : Nat) :
    Keeps (ops ++ [Operation.jump op peek target line]) (b.emitJump op peek target line) where
  code := by simp [Builder.emitJump, Builder.emit, h.code, words, word?]
  lines := by simp [Builder.emitJump, Builder.emit, h.lines, words, word?]
  labels := by simp [Builder.emitJump, Builder.emit, h.labels, labelCount, isNewLabel]
  placed l address := by
    rw [lastPlaced_append (by simp)]
    exact h.placed l address
  pending ip l := by
    have here : (ip, l) ∈ (b.emitJump op peek target line).pending.toList ↔
        (ip, l) ∈ b.pending.toList ∨ (words ops).length = ip ∧ l = target := by
      simp [Builder.emitJump, h.size, eq_comm]
    rw [here, h.pending]
    by_cases same : l = target
    · subst same
      rw [jumpsAt_jump, and_iff_left rfl]
    · rw [jumpsAt_append (by simp [Ne.symm same])]
      simp [same]

theorem newLabel (h : Keeps ops b) : Keeps (ops ++ [Operation.newLabel]) b.newLabel.2 where
  code := by simp [Builder.newLabel, h.code, words, word?]
  lines := by simp [Builder.newLabel, h.lines, words, word?]
  labels := by simp [Builder.newLabel, h.labels, labelCount, isNewLabel]
  placed l address := by
    rw [lastPlaced_append (by simp), ← h.placed]
    simp only [Builder.newLabel, Array.getElem?_push]
    split
    · rename_i last
      simp [last]
    · rfl
  pending ip l := by
    rw [jumpsAt_append (by simp)]
    exact h.pending ip l

theorem place (h : Keeps ops b) (known : l < labelCount ops) :
    Keeps (ops ++ [Operation.place l]) (b.placeLabel l) where
  code := by simp [Builder.placeLabel, h.code, words, word?]
  lines := by simp [Builder.placeLabel, h.lines, words, word?]
  labels := by simp [Builder.placeLabel, h.labels, labelCount, isNewLabel]
  placed k address := by
    simp only [Builder.placeLabel, Array.getElem?_setIfInBounds]
    split
    · rename_i same
      subst same
      rw [if_pos (h.labels.symm ▸ known), h.size, lastPlaced_place]
      simp
    · rename_i differ
      rw [lastPlaced_append (by simp [differ]), h.placed]
  pending ip k := by
    rw [jumpsAt_append (by simp)]
    exact h.pending ip k

/-- Every operation keeps to what was said of the builder. -/
theorem act (h : Keeps ops b) {a : Operation} (known : Known (ops ++ [a])) :
    Keeps (ops ++ [a]) (b.act a) := by
  cases a with
  | emit ins line => exact h.emit ins line
  | jump op peek label line => exact h.jump op peek label line
  | newLabel => exact h.newLabel
  | place label => exact h.place (known ops _ [] label rfl rfl)
  | child u => exact h.aside rfl rfl rfl rfl rfl rfl rfl
  | constant v =>
    simp only [Builder.act, addConstant]
    cases b.constants.findIdx? (· == v) with
    | some i => exact h.aside rfl rfl rfl rfl rfl rfl rfl
    | none =>
      by_cases room : b.constants.size ≤ maxOperand
      · simp only [room, if_true]
        exact h.aside rfl rfl rfl rfl rfl rfl rfl
      · simp only [room, if_false]
        exact h.aside rfl rfl rfl rfl rfl rfl rfl

theorem labelAddress (h : Keeps ops b) (l address : Nat) :
    b.labelAddress? l = some address ↔ LastPlaced ops l address := by
  rw [← h.placed, labelAddress?, Option.join_eq_some_iff]

/-- A label has no place if it was never placed. -/
theorem labelAddress_none (h : Keeps ops b) (l : Nat) :
    b.labelAddress? l = none ↔ Operation.place l ∉ ops := by
  rw [Option.eq_none_iff_forall_ne_some]
  simp only [ne_eq, h.labelAddress]
  constructor
  · intro never mem
    obtain ⟨address, placed⟩ := exists_lastPlaced mem
    exact never address placed
  · exact fun missing address placed => missing placed.mem

/-- What a new builder keeps of all that is done to it. -/
theorem ofMade (paramCount : Nat) (isVararg : Bool) (known : Known ops) :
    Keeps ops (Builder.made paramCount isVararg ops) := by
  induction ops using List.reverseRecOn with
  | nil => exact .start paramCount isVararg
  | append_singleton ops o ih =>
    rw [Builder.made, List.foldl_append]
    exact (ih known.init).act known

/-- The code at the place where an operation emitted a word. -/
theorem word (h : Keeps ops b) {before after : List Operation} {o : Operation} {w : Instruction × Nat}
    (split : ops = before ++ o :: after) (emits : o.word? = some w) :
    b.code[(words before).length]? = some w.1 := by
  rw [← Array.getElem?_toList, h.code, split]
  simp [words, emits]

end Keeps

/-- No two operations emit a word at the same address. -/
theorem Operation.unique {ops before before' after after' : List Operation} {o o' : Operation}
    {w w' : Instruction × Nat} (split : ops = before ++ o :: after) (split' : ops = before' ++ o' :: after')
    (emits : o.word? = some w) (emits' : o'.word? = some w')
    (same : (words before).length = (words before').length) : o = o' := by
  have further {xs ys c : List Operation} {p : Operation} {v : Instruction × Nat} (emits : p.word? = some v)
      (longer : ys = xs ++ p :: c) : (words xs).length < (words ys).length := by
    simp [longer, words, emits]
  rcases List.append_eq_append_iff.1 (split.symm.trans split') with ⟨c, longer, rest⟩ | ⟨c, longer, rest⟩
  · cases c with
    | nil => exact (List.cons.inj rest).1
    | cons p c =>
      obtain ⟨rfl, -⟩ := List.cons.inj rest
      have := further emits longer
      omega
  · cases c with
    | nil => exact (List.cons.inj rest).1.symm
    | cons p c =>
      obtain ⟨rfl, -⟩ := List.cons.inj rest
      have := further emits' longer
      omega

namespace Keeps

variable {ops before after : List Operation} {b : Builder} {l : Nat}

/-- The label of the jump that is pending at an address. -/
theorem jumpTo (h : Keeps ops b) {op : Opcode} {peek : Bool} {line : Nat}
    (split : ops = before ++ .jump op peek l line :: after) :
    jumpTo? (words before).length b.pending.toList = some l := by
  have mem := (h.pending (words before).length l).2 ⟨before, op, peek, line, after, split, rfl⟩
  obtain ⟨k, found⟩ := Option.isSome_iff_exists.1 (jumpTo?_isSome mem)
  obtain ⟨before', op', peek', line', after', split', same⟩ := (h.pending _ k).1 (mem_of_jumpTo? found)
  have only := Operation.unique split split' rfl rfl same.symm
  cases only
  exact found

/-- No jump is pending where another word was emitted. -/
theorem jumpTo_emit (h : Keeps ops b) {ins : Instruction} {line : Nat}
    (split : ops = before ++ .emit ins line :: after) :
    jumpTo? (words before).length b.pending.toList = none := by
  rw [Option.eq_none_iff_forall_ne_some]
  intro k found
  obtain ⟨before', op', peek', line', after', split', same⟩ := (h.pending _ k).1 (mem_of_jumpTo? found)
  cases Operation.unique split split' rfl rfl same.symm

/-- A unit that is finished is as the operations have it. -/
theorem patched (h : Keeps ops b) {id : Nat} {name source : String} {u : CodeUnit}
    (finished : b.finish id name source = .ok u) : Operation.Patched ops u := by
  obtain ⟨small, settled, words, -, -, -, -, -, lines, -⟩ := finish_eq_ok finished
  have size : u.code.size = (Operation.words ops).length := by
    have above := words b.code.size
    have inside := words u.code.size
    rw [Array.getElem?_eq_none (Nat.le_refl _), Option.map_none, Array.getElem?_eq_none_iff] at above
    rw [Array.getElem?_eq_none (Nat.le_refl _), eq_comm, Option.map_eq_none_iff, Array.getElem?_eq_none_iff] at inside
    rw [← h.size]
    omega
  refine ⟨size, by rw [lines, h.lines], fun before ins line after split => ?_, fun before op peek l line after split => ?_⟩
  · rw [words, h.word split rfl]
    simp [Builder.patched, h.jumpTo_emit split]
  · have mem := (h.pending _ l).2 ⟨before, op, peek, line, after, split, rfl⟩
    obtain ⟨address, found⟩ := Option.isSome_iff_exists.1 (settled _ (by simpa using mem))
    have placed := (h.labelAddress l address).1 found
    have low : address ≤ maxOperand := by
      have := placed.le_length
      have := h.size
      omega
    have exact' : address.toUInt16.toNat = address := by
      simp only [maxOperand] at low
      simp
      omega
    refine ⟨{ Instruction.make op 0 (if peek then 1 else 0) with a := address.toUInt16 }, address, ?_, placed, low,
      ?_, exact', ?_⟩
    · rw [words, h.word split rfl]
      simp [Builder.patched, h.jumpTo split, found]
    · simp [Instruction.make, Instruction.opcode?]
    · rw [Instruction.word_toNat]
      simp only [Instruction.make, exact']
      cases peek <;> rfl

end Keeps

/-- Whatever is done to a builder, in whatever order: it cannot be finished only if there are too many
instructions or if the label of some jump was never placed. The finished unit holds the emitted words in
order, each with its line, and a jump leads to where its label was placed for the last time. -/
theorem finish_made (paramCount : Nat) (isVararg : Bool) {ops : List Operation} (known : Operation.Known ops)
    (id : Nat) (name source : String) :
    ((∃ e, (made paramCount isVararg ops).finish id name source = .error e) ↔
      maxOperand < (words ops).length ∨
        ∃ op peek l line, Operation.jump op peek l line ∈ ops ∧ Operation.place l ∉ ops) ∧
    ∀ u, (made paramCount isVararg ops).finish id name source = .ok u → Operation.Patched ops u := by
  have h := Keeps.ofMade paramCount isVararg known
  generalize made paramCount isVararg ops = b at h
  refine ⟨⟨?_, ?_⟩, fun u finished => h.patched finished⟩
  · rintro ⟨e, failed⟩
    rcases finish_error failed with ⟨large, -⟩ | ⟨⟨ip, l⟩, mem, missing⟩
    · exact Or.inl (h.size ▸ large)
    · obtain ⟨before, op, peek, line, after, rfl, -⟩ := (h.pending ip l).1 (by simpa using mem)
      exact Or.inr ⟨op, peek, l, line, by simp, (h.labelAddress_none l).1 missing⟩
  · intro flaw
    cases finished : b.finish id name source with
    | error e => exact ⟨e, rfl⟩
    | ok u =>
      obtain ⟨small, settled, -⟩ := finish_eq_ok finished
      rcases flaw with large | ⟨op, peek, l, line, mem, never⟩
      · rw [h.size] at small
        omega
      · obtain ⟨before, after, split⟩ := List.append_of_mem mem
        have pending := (h.pending _ l).2 ⟨before, op, peek, line, after, split, rfl⟩
        have found := settled _ (by simpa using pending)
        rw [(h.labelAddress_none l).2 never] at found
        cases found

/-- A label that is placed before its first use and again after it. -/
theorem finish_made_twice : ∃ ops : List Operation, Operation.Known ops ∧
    (made 0 false ops).pending = #[(1, 0)] ∧ Operation.place 0 ∈ ops.take 3 ∧
    ((∃ e, (made 0 false ops).finish 0 "f" "test" = .error e) ↔
      maxOperand < (words ops).length ∨
        ∃ op peek l line, Operation.jump op peek l line ∈ ops ∧ Operation.place l ∉ ops) ∧
    ∀ u, (made 0 false ops).finish 0 "f" "test" = .ok u → Operation.Patched ops u := by
  have first := (known_nil.append (o := .newLabel) (by simp [label?])).append
    (o := .emit (.make .newTable 0 0) 1) (by simp [label?])
  have used := (first.append (o := .place 0) (by simp [label?, labelCount, isNewLabel])).append
    (o := .jump .jmpTrue true 0 2) (by simp [label?, labelCount, isNewLabel])
  have known := (used.append (o := .place 0) (by simp [label?, labelCount, isNewLabel])).append
    (o := .emit (.make .ret 0 0) 3) (by simp [label?])
  exact ⟨_, known, rfl, by simp, finish_made 0 false known 0 "f" "test"⟩

end Builder

end ScriptEngine
