import ScriptEngine.Proofs.Table.Border
import ScriptEngine.Proofs.Table.Rows

/-!
# The integrity of a table

After any writes the parts of a table agree (`Intact`): the index leads to the slots of its keys, a slot in use
is found through the index and shares its key with no other, the slots in use are counted, and none of them
belongs into the array part or directly behind it.

So nothing that a write takes for granted fails. The operations that go to a slot of the index and count it as
freed are stated once more with these two steps checked (`putSlot?`, `unlink?`, and what is made of them); they
always give the table that the unchecked ones give (`foldlM_perform?`).

A write that continues the array part moves there what then continues it. It moves a whole run of integers, and
the entries of the table are those that it had and the one written (`Continues`).
-/

set_option linter.dupNamespace false

namespace ScriptEngine.Table

variable {t : Table} {k : Key} {keyValue v : Value} {i : Nat}

/-- The array part, the slots, the index and the count of a table agree. -/
structure Intact (t : Table) : Prop where
  /-- An index entry leads to a slot with its key. -/
  keyed : ∀ k i, t.index[k]? = some i → ∃ slot : Slot, t.slots[i]? = some slot ∧ slot.key = k
  /-- A slot has the key that its value stands for. -/
  named : ∀ slot ∈ t.slots, Key.ofValue slot.keyValue = .ok slot.key
  /-- A slot in use is indexed under its key at its own place. -/
  found : ∀ (i : Nat) (slot : Slot), t.slots[i]? = some slot → slot.value ≠ .nil → t.index[slot.key]? = some i
  /-- No two slots in use have the same key. -/
  single : ∀ (i j : Nat) (slot slot' : Slot), t.slots[i]? = some slot → t.slots[j]? = some slot' → slot.value ≠ .nil →
    slot'.value ≠ .nil → slot.key = slot'.key → i = j
  /-- The slots in use are counted. -/
  counted : t.live = t.slots.countP fun slot => !slot.value.isNil
  /-- A slot in use is for none of the integers of the array part, nor for the next one. -/
  outside : ∀ slot ∈ t.slots, slot.value ≠ .nil → ∀ n, 1 ≤ n → slot.keyValue.IsInteger n → t.array.size + 1 < n

theorem Regular.intact (regular : t.Regular) (filed : t.Filed) : t.Intact where
  keyed _ _ entry := regular.keyed entry
  named := filed.named
  found _ _ place some' := regular.found place some'
  single i j slot slot' place place' some' other same := by
    have entry := regular.found place some'
    rw [same, regular.found place' other] at entry
    exact (Option.some.inj entry).symm
  counted := filed.counted
  outside slot mem some' n pos integer := by
    obtain ⟨j, rfl⟩ := Nat.exists_eq_add_of_le' pos
    obtain ⟨i, place⟩ := Array.getElem?_of_mem mem
    have indexed : slot.key ∈ t.index :=
      Std.HashMap.mem_iff_isSome_getElem?.2 (Option.isSome_of_eq_some (regular.found place some'))
    have behind := regular.apart (filed.named slot mem) indexed (arrayIndex?_of_isInteger integer)
    omega

/-! ## Checked operations -/

/-- The slot at place `i`, and the count of the slots in use without it: there has to be such a slot, and the
count must not fall below 0. -/
def release? (t : Table) (i : Nat) : Option (Slot × Nat) := do
  let slot ← t.slots[i]?
  let freed := if slot.value.isNil then 0 else 1
  if freed ≤ t.live then some (slot, t.live - freed) else none

/-- `putSlot`, checked. -/
def putSlot? (t : Table) (key : Key) (keyValue value : Value) : Option Table :=
  match t.index[key]? with
  | some i => (t.release? i).map fun (_, live) =>
      { t with
        slots := t.slots.modify i ({ · with value })
        live := live + if value.isNil then 0 else 1 }
  | none => some (t.putSlot key keyValue value)

/-- `unlink`, checked. -/
def unlink? (t : Table) (key : Key) : Option (Value × Table) :=
  match t.index[key]? with
  | none => some (.nil, t)
  | some i => (t.release? i).map fun (slot, live) =>
      (slot.value,
        { t with
          index := t.index.erase key
          slots := t.slots.modify i ({ · with value := .nil })
          live })

theorem release?_eq_some {slot : Slot} {live : Nat} (released : t.release? i = some (slot, live)) :
    t.slots[i]? = some slot ∧ live = t.live - if slot.value.isNil then 0 else 1 := by
  unfold release? at released
  cases place : t.slots[i]? with
  | none => simp [place] at released
  | some slot =>
    simp only [place, Option.bind_eq_bind, Option.bind_some, Option.ite_none_right_eq_some, Option.some.injEq,
      Prod.mk.injEq] at released
    obtain ⟨-, rfl, rfl⟩ := released
    exact ⟨rfl, rfl⟩

theorem unlink_of_unlink? {taken : Value × Table} (unlinked : t.unlink? k = some taken) : t.unlink k = taken := by
  unfold unlink? at unlinked
  unfold unlink
  cases entry : t.index[k]? with
  | none =>
    rw [entry] at unlinked
    exact Option.some.inj unlinked
  | some i =>
    simp only [entry, Option.map_eq_some_iff] at unlinked
    obtain ⟨⟨slot, live⟩, released, rfl⟩ := unlinked
    obtain ⟨place, rfl⟩ := release?_eq_some released
    simp only [place, Option.map_some, Option.getD_some]

/-- `migrate`, checked. -/
def migrate? (t : Table) : Option Table :=
  match unlinked : t.unlink? (Key.ofNat (t.array.size + 1)) with
  | none => none
  | some taken =>
    if done : taken.1.isNil then some taken.2
    else
      have : taken.2.index.size < t.index.size := by
        rw [← unlink_of_unlink? unlinked] at done ⊢
        exact size_index_unlink_lt done
      migrate? { taken.2 with array := taken.2.array.push taken.1 }
termination_by t.index.size

/-- `assign`, checked. -/
def assign? (t : Table) (key : Key) (keyValue value : Value) : Option Table :=
  match arrayIndex? keyValue with
  | some i =>
    if i < t.array.size then some { t with array := t.array.setIfInBounds i value }
    else if i = t.array.size ∧ !value.isNil then do
      let taken ← t.unlink? key
      migrate? { taken.2 with array := taken.2.array.push value }
    else assignSlot? t
  | none => assignSlot? t
where
  /-- `assignSlot`, checked. -/
  assignSlot? (t : Table) : Option Table :=
    if t.index.contains key then t.putSlot? key keyValue value
    else if value.isNil then some t
    else if 2 * t.live + 8 ≤ t.slots.size then t.compact.putSlot? key keyValue value
    else t.putSlot? key keyValue value

/-- A write, checked; one that is refused changes nothing. -/
def Write.perform? (t : Table) (w : Write) : Option Table :=
  match Key.ofValue w.key with
  | .ok k => t.assign? k w.key w.content
  | .error _ => some t

namespace Filed

variable (filed : t.Filed) (linked : t.Linked)
include filed linked

/-- What the index leads to is a slot, and it is counted if it is in use. -/
theorem release? (entry : t.index[k]? = some i) : ∃ slot, t.slots[i]? = some slot ∧
    t.release? i = some (slot, t.live - if slot.value.isNil then 0 else 1) := by
  obtain ⟨slot, place, -⟩ := linked.keyed entry
  refine ⟨slot, place, ?_⟩
  have counted : (if slot.value.isNil then 0 else 1) ≤ t.live := by
    cases cleared : slot.value.isNil with
    | true => exact Nat.zero_le _
    | false =>
      rw [filed.counted]
      exact Array.countP_pos_iff.2 ⟨slot, Array.mem_of_getElem? place, by simp [cleared]⟩
  simp only [Table.release?, place, Option.bind_eq_bind, Option.bind_some, if_pos counted]

theorem putSlot? (k : Key) (keyValue v : Value) : t.putSlot? k keyValue v = some (t.putSlot k keyValue v) := by
  cases entry : t.index[k]? with
  | none => simp only [Table.putSlot?, entry]
  | some i =>
    obtain ⟨slot, place, released⟩ := filed.release? linked entry
    simp only [Table.putSlot?, Table.putSlot, entry, released, place, Option.map_some]

theorem unlink? (k : Key) : t.unlink? k = some (t.unlink k) := by
  cases entry : t.index[k]? with
  | none => simp only [Table.unlink?, Table.unlink, entry]
  | some i =>
    obtain ⟨slot, place, released⟩ := filed.release? linked entry
    simp only [Table.unlink?, Table.unlink, entry, released, place, Option.map_some, Option.getD_some]

theorem migrate? : t.migrate? = some t.migrate := by
  fun_induction Table.migrate t with
  | case1 t taken done =>
    have unlinked : t.unlink? _ = some taken := filed.unlink? linked (Key.ofNat (t.array.size + 1))
    unfold Table.migrate?
    split
    · rename_i refused
      cases refused.symm.trans unlinked
    · rename_i taken' again
      cases again.symm.trans unlinked
      exact dif_pos done
  | case2 t taken more _ ih =>
    have unlinked : t.unlink? _ = some taken := filed.unlink? linked (Key.ofNat (t.array.size + 1))
    unfold Table.migrate?
    split
    · rename_i refused
      cases refused.symm.trans unlinked
    · rename_i taken' again
      cases again.symm.trans unlinked
      rw [dif_neg more]
      exact ih ((filed.unlink linked _).withArray _) ((linked.unlink _).withArray _)

theorem assign? (k : Key) (keyValue v : Value) : t.assign? k keyValue v = some (t.assign k keyValue v) := by
  have slot : assign?.assignSlot? k keyValue v t = some (assign.assignSlot k keyValue v t) := by
    unfold assign?.assignSlot? assign.assignSlot
    simp only [filed.putSlot? linked, filed.compact.putSlot? linked.compact, ← apply_ite some]
  unfold Table.assign? Table.assign
  cases arrayIndex? keyValue with
  | none => exact slot
  | some i =>
    have moved : (t.unlink? k).bind (fun taken => Table.migrate? { taken.2 with array := taken.2.array.push v }) =
        some (Table.migrate { (t.unlink k).2 with array := (t.unlink k).2.array.push v }) := by
      rw [filed.unlink? linked, Option.bind_some]
      exact ((filed.unlink linked k).withArray _).migrate? ((linked.unlink k).withArray _)
    simp only [Option.bind_eq_bind, moved, slot, ← apply_ite some]

theorem perform? (w : Write) : w.perform? t = some (w.apply t) := by
  cases accepted : w.key.isKey with
  | false =>
    obtain ⟨what, error⟩ := Key.ofValue_of_not_isKey accepted
    rw [Write.apply_of_not_key accepted, Write.perform?, error]
  | true =>
    obtain ⟨k, key⟩ := Key.ofValue_of_isKey accepted
    rw [Write.apply_of_key key, Write.perform?, key]
    exact filed.assign? linked k w.key w.content

end Filed

/-- No check fails in any writes. -/
theorem foldlM_perform? (writes : List Write) : writes.foldlM Write.perform? {} = some (written writes) := by
  induction writes using List.reverseRecOn with
  | nil => rfl
  | append_singleton writes w ih =>
    rw [List.foldlM_append, ih, written_concat]
    simp [(filed_written writes).perform? (regular_written writes).1.toLinked w]

/-! ## Entries that move -/

/-- Replacing an element that contributes something by one that does not. -/
theorem filterMap_set_perm {α β : Type} {f : α → Option β} {xs : List α} {x y : α} {b : β} (place : xs[i]? = some x)
    (gives : f x = some b) (none : f y = none) : (xs.filterMap f).Perm (b :: (xs.set i y).filterMap f) := by
  obtain ⟨inside, rfl⟩ := List.getElem?_eq_some_iff.1 place
  have before := (List.getElem_cons_eraseIdx_perm inside).symm.filterMap f
  have after := (List.set_perm_cons_eraseIdx inside y).filterMap f
  rw [List.filterMap_cons_some gives] at before
  rw [List.filterMap_cons_none none] at after
  exact before.trans (after.symm.cons b)

/-- A value at the end of the array part is one more entry. -/
theorem entries_push (t : Table) (some' : v ≠ .nil) :
    ({ t with array := t.array.push v } : Table).entries.Perm
      ((.number (Float.ofNat (t.array.size + 1)), v) :: t.entries) := by
  have held : v.isNil = false := Value.isNil_eq_false_iff.2 some'
  simp only [entries, Array.toList_push, List.zipIdx_append, List.filterMap_append, List.append_assoc]
  simp only [List.zipIdx_singleton, Array.length_toList, Nat.zero_add, List.filterMap_cons, List.filterMap_nil, held,
    Bool.false_eq_true, if_false, List.singleton_append]
  exact List.perm_middle

/-- Clearing a slot in use takes its entry away. -/
theorem entries_unlink {slot : Slot} (entry : t.index[k]? = some i) (place : t.slots[i]? = some slot)
    (some' : slot.value ≠ .nil) : t.entries.Perm ((slot.keyValue, slot.value) :: (t.unlink k).2.entries) := by
  have list : t.slots.toList[i]? = some slot := Array.getElem?_toList.trans place
  have slots : (t.unlink k).2.slots.toList = t.slots.toList.set i { slot with value := .nil } := by
    rw [(unlink_of_indexed entry).1, Array.toList_modify, List.modify_eq_set_getElem?, list]
    rfl
  rw [entries, entries, slots, array_unlink]
  refine .trans (.append_left _ (filterMap_set_perm list (if_neg ?_) (if_pos rfl))) List.perm_middle
  rwa [Value.isNil_iff]

/-- Taking a cleared slot out of the index takes no entry away. -/
theorem Linked.entries_unlink_of_nil (linked : t.Linked) (none : t.slotValue k = .nil) :
    (t.unlink k).2.entries = t.entries := by
  cases entry : t.index[k]? with
  | none => rw [unlink_of_new entry]
  | some i =>
    obtain ⟨slot, place, -⟩ := linked.keyed entry
    rw [slotValue_of_index entry place] at none
    have slots : (t.unlink k).2.slots = t.slots := by
      rw [(unlink_of_indexed entry).1]
      refine Array.ext_getElem? fun j => ?_
      rw [Array.getElem?_modify]
      split
      · rename_i same
        rw [← same, place, Option.map_some, ← none]
      · rfl
    rw [entries, entries, slots, array_unlink]

/-- The array part is continued by the entry of the next integer, which is then no longer in the slots. -/
theorem Apart.entries_extend (apart : Apart t.array.size t) (filed : t.Filed) (key : Key.ofValue keyValue = .ok k)
    (continues : arrayIndex? keyValue = some t.array.size) (some' : t.slotValue k ≠ .nil) :
    (t.extend k (t.slotValue k)).entries.Perm t.entries := by
  cases entry : t.index[k]? with
  | none => exact absurd (slotValue_of_not_indexed entry) some'
  | some i =>
    obtain ⟨slot, place, rfl⟩ := apart.keyed entry
    rw [slotValue_of_index entry place] at some' ⊢
    have last : t.array.size ≠ 2 ^ 53 := fun full => arrayIndex?_ne keyValue (full ▸ continues)
    have inside : t.array.size < 2 ^ 53 := Nat.lt_of_le_of_ne apart.short last
    have number : slot.keyValue = .number (Float.ofNat (t.array.size + 1)) :=
      eq_of_arrayIndex? ((arrayIndex?_congr (filed.named slot (Array.mem_of_getElem? place)) key).trans continues)
        (arrayIndex?_ofNat inside)
    have pushed := entries_push (t.unlink slot.key).2 some'
    rw [array_unlink, ← number] at pushed
    rw [Table.extend, array_unlink]
    exact pushed.trans (entries_unlink entry place some').symm

/-- What moves to the array part is neither lost nor doubled. -/
theorem Apart.entries_migrate (apart : Apart t.array.size t) (filed : t.Filed) : t.migrate.entries.Perm t.entries := by
  fun_induction migrate t with
  | case1 t taken done =>
    have none : t.slotValue (Key.ofNat (t.array.size + 1)) = .nil := unlink_value.symm.trans (Value.isNil_iff.1 done)
    exact .of_eq (apart.toLinked.entries_unlink_of_nil none)
  | case2 t taken more _ ih =>
    have some' : t.slotValue (Key.ofNat (t.array.size + 1)) ≠ .nil := by
      rw [← unlink_value]
      exact more ∘ Value.isNil_iff.2
    have inside : t.array.size < 2 ^ 53 := by
      refine Nat.lt_of_le_of_ne apart.short fun full => some' (slotValue_of_not_indexed ?_)
      exact Std.HashMap.getElem?_eq_none (apart.not_mem_of_full full)
    have moved : { taken.2 with array := taken.2.array.push taken.1 } =
        t.extend (Key.ofNat (t.array.size + 1)) (t.slotValue (Key.ofNat (t.array.size + 1))) := by
      rw [← unlink_value]
      rfl
    have filed' := (filed.unlink apart.toLinked (Key.ofNat (t.array.size + 1))).withArray
      (taken.2.array.push taken.1)
    rw [moved] at ih ⊢
    have key := ofValue_ofNat inside
    have continues := arrayIndex?_ofNat inside
    exact (ih (apart.extend key continues) (moved ▸ filed')).trans (apart.entries_extend filed key continues some')

/-- What moves to the array part goes to its end. -/
theorem array_migrate (t : Table) :
    ∃ moved : Array Value, t.migrate.array = t.array ++ moved ∧ ∀ v ∈ moved, v ≠ .nil := by
  fun_induction migrate t with
  | case1 t taken done => exact ⟨#[], by simp [taken], by simp⟩
  | case2 t taken more _ ih =>
    obtain ⟨moved, array, held⟩ := ih
    refine ⟨#[taken.1] ++ moved, ?_, ?_⟩
    · rw [array, Array.push_eq_append, Array.append_assoc]
      exact congrArg (· ++ _) array_unlink
    · intro v mem
      rcases Array.mem_append.1 mem with first | later
      · rw [Array.mem_singleton.1 first]
        exact more ∘ Value.isNil_iff.2
      · exact held v later

/-! ## Runs that move -/

/-- `t'` is `t` with `v` behind the array part, under the next integer `key`, and with `moved` behind that. -/
structure Continues (t : Table) (key v : Value) (moved : Array Value) (t' : Table) : Prop where
  array : t'.array = t.array.push v ++ moved
  /-- What has moved are the values of the integers that follow. -/
  moved : ∀ j (inside : j < moved.size), ∃ slot ∈ t.slots, slot.keyValue.IsInteger (t.array.size + 2 + j) ∧
    slot.value = moved[j] ∧ slot.value ≠ .nil
  /-- The run of these integers goes no further. -/
  whole : ∀ slot ∈ t.slots, slot.keyValue.IsInteger (t'.array.size + 1) → slot.value = .nil
  /-- No entry is lost, and none is there twice. -/
  entries : t'.entries.Perm ((key, v) :: t.entries)

/-- The slot of an integer behind the array part is where it is read. -/
theorem Regular.get_of_slot (regular : t.Regular) (filed : t.Filed) {slot : Slot} (mem : slot ∈ t.slots)
    (some' : slot.value ≠ .nil) (integer : slot.keyValue.IsInteger (i + 1)) (behind : t.array.size ≤ i) :
    t.get slot.keyValue = slot.value := by
  have key := filed.named slot mem
  rw [get_of_outside key fun j position => ?_]
  · exact (regular.slotValue_eq_iff some').2 ⟨slot, mem, rfl, rfl⟩
  · rw [arrayIndex?_of_isInteger integer] at position
    exact Option.some.inj position ▸ behind

theorem Regular.continues (regular : t.Regular) (filed : t.Filed) (integer : keyValue.IsInteger (t.array.size + 1))
    (some' : v ≠ .nil) (key : Key.ofValue keyValue = .ok k) :
    ∃ moved, Continues t keyValue v moved (t.assign k keyValue v) := by
  have continues := arrayIndex?_of_isInteger integer
  have held : v.isNil = false := Value.isNil_eq_false_iff.2 some'
  have written : t.assign k keyValue v = (t.extend k v).migrate := by
    rw [Table.assign, continues]
    simp only [Nat.lt_irrefl, if_false, held, Bool.not_false, and_self, if_true]
    rfl
  have number : keyValue = .number (Float.ofNat (t.array.size + 1)) := by
    have last : t.array.size ≠ 2 ^ 53 := fun full => arrayIndex?_ne keyValue (full ▸ continues)
    exact eq_of_arrayIndex? continues (arrayIndex?_ofNat (Nat.lt_of_le_of_ne regular.short last))
  -- in a regular table the key that continues the array part is not indexed
  have absent : k ∉ t.index := fun mem => absurd (regular.apart key mem continues) (by omega)
  have unlinked : (t.unlink k).2 = t := unlink_of_new (Std.HashMap.getElem?_eq_none absent)
  have apart := regular.loosen.extend (v := v) key continues
  have writes := regular.continue (v := v) key continues
  obtain ⟨moved, array, all⟩ := array_migrate (t.extend k v)
  rw [array_extend] at array
  have size : (t.extend k v).migrate.array.size = t.array.size + 1 + moved.size := by simp [array]
  -- an integer behind the array part is another key and reads as before
  have frame {other : Value} {j : Nat} (position : arrayIndex? other = some j) (behind : t.array.size < j) :
      (t.extend k v).migrate.get other = t.get other := by
    obtain ⟨k', key'⟩ := Key.ofValue_of_isKey (isKey_of_isInteger (isInteger_of_arrayIndex? position))
    refine writes.frame key' ?_
    rintro rfl
    rw [arrayIndex?_congr key' key, continues] at position
    exact absurd (Option.some.inj position) (by omega)
  rw [written]
  refine ⟨moved, array, fun j inside => ?_, fun slot mem next => ?_, ?_⟩
  · have short : t.array.size + 1 + j < 2 ^ 53 := by
      have := writes.regular.short
      omega
    have position := arrayIndex?_ofNat short
    obtain ⟨k', key'⟩ := Key.ofValue_of_isKey (isKey_of_isInteger (isInteger_ofNat short))
    have reads : t.slotValue k' = moved[j] := by
      rw [← get_of_outside key' fun i same => ?_, ← frame position (by omega), get_of_key key', position]
      · have later : ¬t.array.size + 1 + j ≤ t.array.size := by omega
        simp [array, Array.getElem?_append, inside, later]
      · rw [position] at same
        cases same
        omega
    obtain ⟨slot, mem, rfl, value⟩ := (regular.slotValue_eq_iff (all _ (Array.getElem_mem inside))).1 reads
    refine ⟨slot, mem, ?_, value, value ▸ all _ (Array.getElem_mem inside)⟩
    have place := isInteger_of_arrayIndex? ((arrayIndex?_congr (filed.named slot mem) key').trans position)
    rwa [show t.array.size + 2 + j = t.array.size + 1 + j + 1 by omega]
  · by_contra filled
    have reads := regular.get_of_slot filed mem filled next (by omega)
    rw [← frame (arrayIndex?_of_isInteger next) (by omega)] at reads
    refine (writes.regular.holdsAt_iff (Nat.le_refl _)).1 ⟨_, next, reads ▸ filled⟩ ?_
    rw [Array.getElem?_eq_none (Nat.le_refl _), Option.getD_none]
  · have filed' : (t.extend k v).Filed := (filed.unlink regular.toLinked k).withArray _
    have pushed := entries_push t some'
    rw [← number] at pushed
    have extended : t.extend k v = { t with array := t.array.push v } := by rw [extend, unlinked]
    exact (apart.entries_migrate filed').trans (extended ▸ pushed)

/-- After any writes the parts of the table agree, and no write has gone to a slot that is not there or has
freed more slots than were in use. A write that continues the array part moves there all that then continues it,
and no entry is lost or doubled. -/
theorem written_intact (writes : List Write) :
    (written writes).Intact ∧ writes.foldlM Write.perform? {} = some (written writes) ∧
    ∀ key v, key.IsInteger ((written writes).array.size + 1) → v ≠ .nil →
      ∃ moved, Continues (written writes) key v moved (written (writes ++ [.value key v])) := by
  have regular := (regular_written writes).1
  have filed := filed_written writes
  refine ⟨regular.intact filed, foldlM_perform? writes, fun key v integer some' => ?_⟩
  obtain ⟨k, found⟩ := Key.ofValue_of_isKey (isKey_of_isInteger integer)
  rw [written_concat, Write.apply_of_key (show Key.ofValue (Write.value key v).key = .ok k from found)]
  exact regular.continues filed integer some' found

/-- A write that leaves a gap behind the array part does not change it. -/
theorem array_apply_of_gap {w : Write} {n : Nat} (position : arrayIndex? w.key = some n) (gap : t.array.size < n) :
    (w.apply t).array = t.array := by
  obtain ⟨k, key⟩ := Key.ofValue_of_isKey (isKey_of_isInteger (isInteger_of_arrayIndex? position))
  rw [Write.apply_of_key key, assign, position]
  simp only [Nat.not_lt_of_gt gap, Nat.ne_of_gt gap, false_and, if_false, assign.assignSlot]
  split_ifs <;> simp

/-- Two integers, with a gap before them. -/
def gapped : List Write := [.value (.number 3) (.string "c"), .value (.number 2) (.string "b")]

theorem array_gapped : (written gapped).array = #[] := by
  have third : arrayIndex? (.number 3) = some 2 := arrayIndex?_ofNat (i := 2) (by decide)
  have second : arrayIndex? (.number 2) = some 1 := arrayIndex?_ofNat (i := 1) (by decide)
  have first := array_apply_of_gap (t := {}) (w := .value (.number 3) (.string "c")) third (by decide)
  have behind : (Write.apply {} (.value (.number 3) (.string "c"))).array.size < 1 := by rw [first]; decide
  exact (array_apply_of_gap (w := .value (.number 2) (.string "b")) second behind).trans first

theorem written_intact_gapped : ∃ moved, Continues (written gapped) (.number 1) (.string "a") moved
    (written (gapped ++ [.value (.number 1) (.string "a")])) := by
  refine (written_intact gapped).2.2 _ _ ?_ nofun
  rw [array_gapped]
  exact isInteger_ofNat (n := 0) (by decide)

end ScriptEngine.Table
