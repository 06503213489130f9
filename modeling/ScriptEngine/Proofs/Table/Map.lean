import ScriptEngine.Proofs.Table.Slots

/-!
# A table is a finite map

The slots hold no key that the array part has a place for, nor the one that would continue it
(`Regular`). Writing a key changes what is read under that key, and nothing else (`get_assign`), although
entries move between the two parts. So a table that was made by any writes returns, for every key, what
was last written under it (`get_written`).
-/

set_option linter.dupNamespace false

namespace ScriptEngine.Table

variable {t : Table} {k : Key} {keyValue other v : Value}

/-- The index and the slots agree, and from array position `start` on the array part is free for the
keys in the slots. -/
structure Apart (start : Nat) (t : Table) : Prop extends Linked t where
  apart : ∀ {v k j}, Key.ofValue v = .ok k → k ∈ t.index → arrayIndex? v = some j → start ≤ j
  short : t.array.size ≤ 2 ^ 53

/-- What the slots hold starts behind the position that would continue the array part. -/
def Regular (t : Table) : Prop := Apart (t.array.size + 1) t

theorem regular_empty : Regular {} where
  toLinked := linked_empty
  apart _ mem := absurd mem Std.HashMap.not_mem_empty
  short := Nat.zero_le _

/-! ## Reading -/

theorem get_of_key (key : Key.ofValue keyValue = .ok k) :
    t.get keyValue = ((arrayIndex? keyValue).bind (t.array[·]?)).getD (t.slotValue k) := by
  rw [get]
  cases (arrayIndex? keyValue).bind (t.array[·]?) with
  | some value => rfl
  | none => rw [key]; rfl

theorem get_of_not_key (refused : keyValue.isKey = false) : t.get keyValue = .nil := by
  obtain ⟨what, error⟩ := Key.ofValue_of_not_isKey refused
  have none : arrayIndex? keyValue = none := by
    cases position : arrayIndex? keyValue with
    | none => rfl
    | some i =>
      obtain ⟨x, rfl, integral, -⟩ := number_of_arrayIndex? position
      rw [Value.isKey, Number.isNaN_of_isIntegral integral] at refused
      cases refused
  rw [get, none, error]
  rfl

theorem get_empty (key : Value) : Table.get {} key = .nil := by
  cases isKey : key.isKey with
  | false => exact get_of_not_key isKey
  | true =>
    obtain ⟨k, found⟩ := Key.ofValue_of_isKey isKey
    rw [get_of_key found, slotValue_of_not_indexed Std.HashMap.getElem?_empty]
    cases arrayIndex? key <;> rfl

/-- What is not read from the array part is read from the slots. -/
theorem get_of_outside (key : Key.ofValue keyValue = .ok k)
    (outside : ∀ i, arrayIndex? keyValue = some i → t.array.size ≤ i) :
    t.get keyValue = t.slotValue k := by
  rw [get_of_key key]
  cases position : arrayIndex? keyValue with
  | none => rfl
  | some i => rw [Option.bind_some, Array.getElem?_eq_none (outside i position), Option.getD_none]

/-- Reading depends on the key only. -/
theorem get_congr (key : Key.ofValue keyValue = .ok k) (key' : Key.ofValue other = .ok k) :
    t.get keyValue = t.get other := by
  rw [get_of_key key, get_of_key key', arrayIndex?_congr key key']

/-! ## Continuing the array part -/

/-- The array part continued by the entry of `k`. -/
def extend (t : Table) (k : Key) (v : Value) : Table :=
  { (t.unlink k).2 with array := (t.unlink k).2.array.push v }

@[simp]
theorem array_extend : (t.extend k v).array = t.array.push v := congrArg (·.push v) array_unlink

section

variable (key : Key.ofValue keyValue = .ok k) (continues : arrayIndex? keyValue = some t.array.size)
include key continues

theorem get_extend_self : (t.extend k v).get keyValue = v := by
  rw [get_of_key key, continues]
  simp

theorem Linked.get_extend_of_ne (linked : t.Linked) {k' : Key} (key' : Key.ofValue other = .ok k') (ne : k' ≠ k) :
    (t.extend k v).get other = t.get other := by
  have slot : (t.extend k v).slotValue k' = t.slotValue k' :=
    (linked.slotValue_unlink k k').trans (if_neg ne)
  rw [get_of_key key', get_of_key key', slot]
  cases position : arrayIndex? other with
  | none => rfl
  | some i =>
    have elsewhere : i ≠ t.array.size := by
      rintro rfl
      rw [eq_of_arrayIndex? position continues, key] at key'
      exact ne (Except.ok.inj key').symm
    simp [Array.getElem?_push, elsewhere]

theorem Apart.extend (apart : Apart t.array.size t) :
    Apart (t.extend k v).array.size (t.extend k v) := by
  have size : (t.extend k v).array.size = t.array.size + 1 := by
    rw [array_extend, Array.size_push]
  refine ⟨(apart.toLinked.unlink k).withArray _, fun {v' k' j} key' mem position => ?_, ?_⟩
  · obtain ⟨ne, mem⟩ := mem_index_unlink.1 mem
    have behind := apart.apart key' mem position
    have elsewhere : j ≠ t.array.size := by
      rintro rfl
      rw [eq_of_arrayIndex? position continues, key] at key'
      exact ne (Except.ok.inj key').symm
    omega
  · have last : t.array.size ≠ 2 ^ 53 := fun full => arrayIndex?_ne keyValue (full ▸ continues)
    have short := apart.short
    omega

end

/-- Moving an entry that continues the array part there keeps all that is read. -/
theorem Linked.get_extend_slotValue (linked : t.Linked) (key : Key.ofValue keyValue = .ok k)
    (continues : arrayIndex? keyValue = some t.array.size) (other : Value) :
    (t.extend k (t.slotValue k)).get other = t.get other := by
  cases isKey : other.isKey with
  | false => rw [get_of_not_key isKey, get_of_not_key isKey]
  | true =>
    obtain ⟨k', key'⟩ := Key.ofValue_of_isKey isKey
    by_cases same : k' = k
    · subst same
      rw [get_congr key' key, get_congr key' key, get_extend_self key continues, get_of_outside key]
      intro i position
      rw [continues] at position
      exact (Option.some.inj position).le
    · exact linked.get_extend_of_ne key continues key' same

/-- Taking a cleared entry out of the index keeps all that is read. -/
theorem Linked.get_unlink_of_nil (linked : t.Linked) (none : t.slotValue k = .nil) (other : Value) :
    (t.unlink k).2.get other = t.get other := by
  cases isKey : other.isKey with
  | false => rw [get_of_not_key isKey, get_of_not_key isKey]
  | true =>
    obtain ⟨k', key'⟩ := Key.ofValue_of_isKey isKey
    rw [get_of_key key', get_of_key key', array_unlink, linked.slotValue_unlink]
    split
    · rename_i same
      rw [same, none]
    · rfl

/-- The longest array part that there is cannot be continued. -/
theorem Apart.not_mem_of_full (apart : Apart t.array.size t) (full : t.array.size = 2 ^ 53) :
    Key.ofNat (t.array.size + 1) ∉ t.index := by
  intro mem
  -- the key for the next position is that of the last one
  have last : Key.ofNat (2 ^ 53 + 1) = Key.ofNat (2 ^ 53 - 1 + 1) := by decide +kernel
  rw [full, last] at mem
  have := apart.apart (ofValue_ofNat (by decide)) mem (arrayIndex?_ofNat (by decide))
  omega

/-- The position that would continue the array part is not that of another key. -/
theorem Apart.next_ne (apart : Apart t.array.size t) {j : Nat} (key : Key.ofValue v = .ok k)
    (position : arrayIndex? v = some j) (other : k ≠ Key.ofNat (t.array.size + 1)) :
    j ≠ t.array.size := by
  rintro rfl
  have last : t.array.size ≠ 2 ^ 53 := fun full => arrayIndex?_ne v (full ▸ position)
  have inside : t.array.size < 2 ^ 53 := Nat.lt_of_le_of_ne apart.short last
  rw [eq_of_arrayIndex? position (arrayIndex?_ofNat inside), ofValue_ofNat inside] at key
  exact other (Except.ok.inj key).symm

theorem migrate_regular (apart : Apart t.array.size t) :
    Regular t.migrate ∧ ∀ other, t.migrate.get other = t.get other := by
  fun_induction migrate t with
  | case1 t taken done =>
    have none : t.slotValue (Key.ofNat (t.array.size + 1)) = .nil :=
      unlink_value.symm.trans (Value.isNil_iff.1 done)
    refine ⟨⟨apart.toLinked.unlink _, fun {v k j} key mem position => ?_, ?_⟩,
      apart.toLinked.get_unlink_of_nil none⟩
    · obtain ⟨ne, mem⟩ := mem_index_unlink.1 mem
      have behind := apart.apart key mem position
      have elsewhere := apart.next_ne key position ne
      rw [array_unlink]
      omega
    · rw [array_unlink]
      exact apart.short
  | case2 t taken more _ ih =>
    have entry : Key.ofNat (t.array.size + 1) ∈ t.index := by
      by_contra absent
      apply more
      rw [Value.isNil_iff]
      exact unlink_value.trans (slotValue_of_not_indexed (Std.HashMap.getElem?_eq_none absent))
    have inside : t.array.size < 2 ^ 53 :=
      Nat.lt_of_le_of_ne apart.short fun full => apart.not_mem_of_full full entry
    have moved : { taken.2 with array := taken.2.array.push taken.1 } =
        t.extend (Key.ofNat (t.array.size + 1)) (t.slotValue (Key.ofNat (t.array.size + 1))) := by
      rw [← unlink_value]
      rfl
    rw [moved] at ih ⊢
    have key := ofValue_ofNat inside
    have continues := arrayIndex?_ofNat inside
    obtain ⟨regular, same⟩ := ih (apart.extend key continues)
    exact ⟨regular, fun other => (same other).trans (apart.toLinked.get_extend_slotValue key continues other)⟩

/-! ## Writing -/

theorem Regular.loosen (regular : t.Regular) : Apart t.array.size t :=
  ⟨regular.toLinked, fun key mem position => Nat.le_of_succ_le (regular.apart key mem position),
    regular.short⟩

/-- `t'` is `t` with `v` written under `k`. -/
structure Writes (t : Table) (k : Key) (v : Value) (t' : Table) : Prop where
  regular : Regular t'
  same : ∀ {other}, Key.ofValue other = .ok k → t'.get other = v
  frame : ∀ {other k'}, Key.ofValue other = .ok k' → k' ≠ k → t'.get other = t.get other

/-- Writing within the array part. -/
theorem Regular.setIfInBounds (regular : t.Regular) (key : Key.ofValue keyValue = .ok k) {i : Nat}
    (position : arrayIndex? keyValue = some i) (inside : i < t.array.size) :
    Writes t k v { t with array := t.array.setIfInBounds i v } where
  regular := by
    have size : (t.array.setIfInBounds i v).size = t.array.size := Array.size_setIfInBounds
    refine ⟨regular.toLinked.withArray _, ?_, ?_⟩ <;> rw [size]
    · exact regular.apart
    · exact regular.short
  same := by
    intro other key'
    rw [get_of_key key', arrayIndex?_congr key' key, position]
    simp [inside]
  frame := by
    intro other k' key' ne
    rw [get_of_key key', get_of_key key']
    cases position' : arrayIndex? other with
    | none => rfl
    | some j =>
      have elsewhere : i ≠ j := by
        rintro rfl
        rw [eq_of_arrayIndex? position' position, key] at key'
        exact ne (Except.ok.inj key').symm
      simp [Array.getElem?_setIfInBounds, elsewhere]
      rfl

/-- Writing the entry that continues the array part. -/
theorem Regular.continue (regular : t.Regular) (key : Key.ofValue keyValue = .ok k)
    (continues : arrayIndex? keyValue = some t.array.size) : Writes t k v (t.extend k v).migrate := by
  obtain ⟨regular', same⟩ := migrate_regular (regular.loosen.extend (v := v) key continues)
  refine ⟨regular', fun {other} key' => ?_, fun {other k'} key' ne => ?_⟩
  · rw [same, get_congr key' key, get_extend_self key continues]
  · rw [same, regular.toLinked.get_extend_of_ne key continues key' ne]

/-- Writing a slot. -/
theorem Regular.putSlot (regular : t.Regular) (key : Key.ofValue keyValue = .ok k)
    (outside : ∀ i, arrayIndex? keyValue = some i → t.array.size < i) :
    Writes t k v (t.putSlot k keyValue v) where
  regular := by
    refine ⟨regular.toLinked.putSlot k keyValue v, ?_, ?_⟩ <;> rw [array_putSlot]
    · intro v' k' j key' mem position
      rcases mem_index_putSlot.1 mem with rfl | mem
      · exact outside j (arrayIndex?_congr key' key ▸ position)
      · exact regular.apart key' mem position
    · exact regular.short
  same := by
    intro other key'
    rw [get_congr key' key, get_of_outside key, regular.toLinked.slotValue_putSlot, if_pos rfl]
    intro i position
    rw [array_putSlot]
    exact (outside i position).le
  frame := by
    intro other k' key' ne
    rw [get_of_key key', get_of_key key', array_putSlot, regular.toLinked.slotValue_putSlot, if_neg ne]

theorem Regular.compact (regular : t.Regular) :
    Regular t.compact ∧ ∀ other, t.compact.get other = t.get other := by
  refine ⟨⟨regular.toLinked.compact, fun key mem => ?_, regular.short⟩, fun other => ?_⟩
  · exact regular.apart key (regular.toLinked.mem_index_compact mem)
  · cases isKey : other.isKey with
    | false => rw [get_of_not_key isKey, get_of_not_key isKey]
    | true =>
      obtain ⟨k', key'⟩ := Key.ofValue_of_isKey isKey
      rw [get_of_key key', get_of_key key', array_compact, regular.toLinked.slotValue_compact]

/-- Writing what the array part has no place for. -/
theorem Regular.assignSlot (regular : t.Regular) (key : Key.ofValue keyValue = .ok k)
    (outside : ∀ i, arrayIndex? keyValue = some i →
      t.array.size < i ∨ i = t.array.size ∧ v.isNil = true) :
    Writes t k v (assign.assignSlot k keyValue v t) := by
  unfold assign.assignSlot
  split
  · rename_i mem
    exact regular.putSlot key fun i position => regular.apart key (Std.HashMap.mem_iff_contains.2 mem) position
  · rename_i absent
    split
    · -- clearing what is not there
      rename_i cleared
      have none : t.slotValue k = .nil :=
        slotValue_of_not_indexed (Std.HashMap.getElem?_eq_none (by simpa using absent))
      refine ⟨regular, fun {other} key' => ?_, fun _ _ => rfl⟩
      rw [get_congr key' key, get_of_outside key, none, Value.isNil_iff.1 cleared]
      intro i position
      rcases outside i position with behind | ⟨rfl, -⟩
      · exact behind.le
      · exact Nat.le_refl _
    · rename_i filled
      have outside : ∀ i, arrayIndex? keyValue = some i → t.array.size < i := by
        intro i position
        rcases outside i position with behind | ⟨-, cleared⟩
        · exact behind
        · exact absurd cleared filled
      split
      · obtain ⟨regular', same⟩ := regular.compact
        obtain ⟨regular'', written, frame⟩ := regular'.putSlot (v := v) key outside
        exact ⟨regular'', written, fun key' ne => (frame key' ne).trans (same _)⟩
      · exact regular.putSlot key outside

theorem Regular.assign (regular : t.Regular) (key : Key.ofValue keyValue = .ok k) (v : Value) :
    Writes t k v (t.assign k keyValue v) := by
  unfold Table.assign
  cases position : arrayIndex? keyValue with
  | none =>
    apply regular.assignSlot key
    intro i some'
    rw [position] at some'
    cases some'
  | some i =>
    dsimp only
    split
    · rename_i inside
      exact regular.setIfInBounds key position inside
    · rename_i outside
      split
      · rename_i continues
        exact regular.continue key (continues.1 ▸ position)
      · rename_i skips
        apply regular.assignSlot key
        intro j position'
        rw [position] at position'
        cases position'
        rcases Nat.lt_or_eq_of_le (Nat.le_of_not_lt outside) with behind | rfl
        · exact .inl behind
        · simpa using skips

/-! ## Any writes -/

/-- A write to a table, under a value or under a string. -/
inductive Write where
  | value (key value : Value)
  | string (key : String) (value : Value)

namespace Write

/-- The key that is written. -/
def key : Write → Value
  | value key _ => key
  | string key _ => .string key

/-- The value that is written. -/
def content : Write → Value
  | value _ content => content
  | string _ content => content

/-- The table after a write; a write that is refused changes nothing. -/
def apply (t : Table) : Write → Table
  | value key content =>
    match t.set key content with
    | .ok t' => t'
    | .error _ => t
  | string key content => t.setString key content

end Write

/-- The table that some writes make. -/
def written (writes : List Write) : Table := writes.foldl Write.apply {}

/-- The value of the last write that is accepted and whose key equals `key`, or `nil`. -/
def lastWritten (key : Value) (writes : List Write) : Value :=
  (((writes.filter fun w => w.key.isKey && w.key == key).getLast?).map Write.content).getD .nil

theorem lastWritten_concat (key : Value) (writes : List Write) (w : Write) :
    lastWritten key (writes ++ [w]) =
      if (w.key.isKey && w.key == key) = true then w.content else lastWritten key writes := by
  rw [lastWritten, List.filter_append]
  split
  · rename_i last
    rw [List.filter_singleton, last]
    simp
  · rename_i other
    rw [List.filter_singleton, Bool.eq_false_of_not_eq_true other]
    simp [lastWritten]

theorem written_concat (writes : List Write) (w : Write) :
    written (writes ++ [w]) = w.apply (written writes) := by
  rw [written, List.foldl_append]
  rfl

theorem set_of_key (key : Key.ofValue keyValue = .ok k) (v : Value) :
    t.set keyValue v = .ok (t.assign k keyValue v) := by
  rw [set, key]
  rfl

/-- What is not a key is refused. -/
theorem set_of_not_key (refused : keyValue.isKey = false) (v : Value) :
    ∃ what, t.set keyValue v = .error (.invalidKey what) := by
  obtain ⟨what, error⟩ := Key.ofValue_of_not_isKey refused
  refine ⟨what, ?_⟩
  rw [set, error]
  rfl

theorem Write.apply_of_not_key {w : Write} (refused : w.key.isKey = false) : w.apply t = t := by
  cases w with
  | value key content =>
    obtain ⟨what, error⟩ := set_of_not_key (t := t) (show key.isKey = false from refused) content
    rw [apply, error]
  | string key content => cases refused

theorem Write.apply_of_key {w : Write} (key : Key.ofValue w.key = .ok k) :
    w.apply t = t.assign k w.key w.content := by
  cases w with
  | value keyValue content =>
    rw [apply, set_of_key (show Key.ofValue keyValue = .ok k from key)]
    rfl
  | string s content =>
    cases key
    rfl

/-- One write: the table stays regular, and reads as before but under the key that is written. -/
theorem Regular.apply (regular : t.Regular) (w : Write) :
    Regular (w.apply t) ∧ ∀ key, (w.apply t).get key =
      if (w.key.isKey && w.key == key) = true then w.content else t.get key := by
  cases accepted : w.key.isKey with
  | false =>
    rw [Write.apply_of_not_key accepted]
    exact ⟨regular, fun key => rfl⟩
  | true =>
    obtain ⟨k, key⟩ := Key.ofValue_of_isKey accepted
    rw [Write.apply_of_key key]
    obtain ⟨regular', same, frame⟩ := regular.assign key w.content
    refine ⟨regular', fun other => ?_⟩
    rw [Bool.true_and]
    cases isKey : other.isKey with
    | false =>
      rw [Key.beq_of_not_isKey accepted isKey, if_neg Bool.false_ne_true, get_of_not_key isKey,
        get_of_not_key isKey]
    | true =>
      obtain ⟨k', key'⟩ := Key.ofValue_of_isKey isKey
      have equal := Key.beq_iff_ofValue accepted isKey
      rw [key, key', Except.ok.injEq] at equal
      split
      · rename_i h
        exact same (equal.1 h ▸ key')
      · rename_i h
        exact frame key' fun h' => h (equal.2 h'.symm)

theorem regular_written (writes : List Write) :
    Regular (written writes) ∧ ∀ key, (written writes).get key = lastWritten key writes := by
  induction writes using List.reverseRecOn with
  | nil => exact ⟨regular_empty, fun key => get_empty key⟩
  | append_singleton writes w ih =>
    obtain ⟨regular, reads⟩ := ih
    obtain ⟨regular', reads'⟩ := regular.apply w
    rw [written_concat]
    refine ⟨regular', fun key => ?_⟩
    rw [reads', lastWritten_concat, reads]

/-- A table is a finite map: after any writes, each key reads as the last value that was written under an
equal key. What is not a key is refused, without a change, and reads as `nil`; every key is accepted. -/
theorem get_written (writes : List Write) :
    (∀ key, (written writes).get key = lastWritten key writes) ∧
    (∀ key v, key.isKey = false →
      (∃ what, (written writes).set key v = .error (.invalidKey what)) ∧
        written (writes ++ [.value key v]) = written writes ∧ (written writes).get key = .nil) ∧
    ∀ key v, key.isKey = true → ∃ t, (written writes).set key v = .ok t := by
  refine ⟨(regular_written writes).2, fun key v refused => ⟨set_of_not_key refused v, ?_, ?_⟩,
    fun key v accepted => ?_⟩
  · rw [written_concat]
    exact Write.apply_of_not_key refused
  · exact get_of_not_key refused
  · obtain ⟨k, found⟩ := Key.ofValue_of_isKey accepted
    exact ⟨_, set_of_key found v⟩

/-- Writes out of order, to both zeros and to no key: position 2 is a slot that moves to the array. -/
def mixedWrites : List Write :=
  [.value (.number 2) (.string "b"), .value (.number (-0.0)) (.string "z"), .value .nil (.boolean true),
    .value (.number 1) (.string "a"), .string "k" .nil]

theorem get_mixedWrites :
    (written mixedWrites).get (.number 2) = .string "b" ∧
      (written mixedWrites).get (.number 0) = .string "z" ∧
      (written mixedWrites).get .nil = .nil := by
  have reads := get_written mixedWrites
  refine ⟨(reads.1 _).trans ?_, (reads.1 _).trans ?_, (reads.2.1 .nil .nil rfl).2.2⟩
  · rfl
  · rfl

end ScriptEngine.Table
