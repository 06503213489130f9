import ScriptEngine.Proofs.Table.Key

/-!
# The slot part of a table

The index and the slots agree (`Linked`): an index entry leads to a slot with its key, and a slot that is
not cleared is found through the index. Every operation on the slot part keeps this, and is known by what
`slotValue` reads afterwards: `putSlot` writes one key, `unlink` clears one, `compact` changes nothing.
-/

set_option linter.dupNamespace false

namespace ScriptEngine

@[simp]
theorem Value.isNil_iff {v : Value} : v.isNil = true ↔ v = .nil := by
  cases v <;> simp [Value.isNil]

theorem Value.isNil_eq_false_iff {v : Value} : v.isNil = false ↔ v ≠ .nil := by
  rw [← Bool.not_eq_true, Value.isNil_iff]

namespace Table

/-- The index and the slots agree. -/
structure Linked (t : Table) : Prop where
  /-- An index entry leads to a slot with its key. -/
  keyed : ∀ {k i}, t.index[k]? = some i → ∃ slot : Slot, t.slots[i]? = some slot ∧ slot.key = k
  /-- A slot that is not cleared is found through the index. -/
  found : ∀ {i} {slot : Slot}, t.slots[i]? = some slot → slot.value ≠ .nil → t.index[slot.key]? = some i

theorem linked_empty : Linked {} where
  keyed h := by
    rw [Std.HashMap.getElem?_empty] at h
    cases h
  found h := by cases h

variable {t : Table} {k : Key} {i : Nat} {v : Value}

theorem slotValue_of_index {slot : Slot} (entry : t.index[k]? = some i)
    (place : t.slots[i]? = some slot) : t.slotValue k = slot.value := by
  simp only [slotValue, entry, place, Option.map_some, Option.getD_some]

theorem slotValue_of_not_indexed (none : t.index[k]? = none) : t.slotValue k = .nil := by
  rw [slotValue, none]

/-- A slot after the value of slot `i` was replaced. -/
theorem getElem?_modify_value {slots : Array Slot} {j : Nat} {slot' : Slot} :
    (slots.modify i ({ · with value := v }))[j]? = some slot' ↔
      ∃ slot, slots[j]? = some slot ∧ slot' = { slot with value := if i = j then v else slot.value } := by
  rw [Array.getElem?_modify]
  by_cases here : i = j
  · simp only [if_pos here, Option.map_eq_some_iff, @eq_comm _ slot']
  · simp only [if_neg here, exists_eq_right']

/-! What each operation does to the slots and to the index. -/

theorem putSlot_of_indexed (entry : t.index[k]? = some i) (keyValue : Value) :
    (t.putSlot k keyValue v).slots = t.slots.modify i ({ · with value := v }) ∧
      (t.putSlot k keyValue v).index = t.index := by
  simp only [putSlot, entry, and_self]

theorem putSlot_of_new (none : t.index[k]? = none) (keyValue : Value) :
    (t.putSlot k keyValue v).slots = t.slots.push ⟨k, keyValue, v⟩ ∧
      (t.putSlot k keyValue v).index = t.index.insert k t.slots.size := by
  simp only [putSlot, none, and_self]

theorem unlink_of_indexed (entry : t.index[k]? = some i) :
    (t.unlink k).2.slots = t.slots.modify i ({ · with value := .nil }) ∧
      (t.unlink k).2.index = t.index.erase k := by
  simp only [unlink, entry, and_self]

theorem unlink_of_new (none : t.index[k]? = none) : (t.unlink k).2 = t := by
  simp only [unlink, none]

theorem unlink_value : (t.unlink k).1 = t.slotValue k := by
  unfold unlink slotValue
  cases t.index[k]? <;> rfl

@[simp]
theorem array_putSlot (keyValue : Value) : (t.putSlot k keyValue v).array = t.array := by
  unfold putSlot
  cases t.index[k]? <;> rfl

@[simp]
theorem array_unlink : (t.unlink k).2.array = t.array := by
  unfold unlink
  cases t.index[k]? <;> rfl

@[simp]
theorem array_compact : t.compact.array = t.array := rfl

namespace Linked

variable (linked : t.Linked)
include linked

/-- The array part does not matter. -/
theorem withArray (array : Array Value) : Linked { t with array } := ⟨linked.keyed, linked.found⟩

/-- Index entries of different keys lead to different slots. -/
theorem index_injective {k' : Key} (first : t.index[k]? = some i) (second : t.index[k']? = some i) :
    k = k' := by
  obtain ⟨slot, place, rfl⟩ := linked.keyed first
  obtain ⟨slot', place', rfl⟩ := linked.keyed second
  rw [place] at place'
  rw [Option.some.inj place']

/-- What the slot of a key holds, unless it is cleared. -/
theorem slotValue_eq_iff (some' : v ≠ .nil) :
    t.slotValue k = v ↔ ∃ slot ∈ t.slots, slot.key = k ∧ slot.value = v := by
  constructor
  · rintro rfl
    cases entry : t.index[k]? with
    | none => exact absurd (slotValue_of_not_indexed entry) some'
    | some i =>
      obtain ⟨slot, place, key⟩ := linked.keyed entry
      exact ⟨slot, Array.mem_of_getElem? place, key, (slotValue_of_index entry place).symm⟩
  · rintro ⟨slot, mem, rfl, rfl⟩
    obtain ⟨i, place⟩ := Array.getElem?_of_mem mem
    exact slotValue_of_index (linked.found place some') place

/-! ## Writing a slot -/

theorem putSlot (k : Key) (keyValue v : Value) : (t.putSlot k keyValue v).Linked := by
  cases entry : t.index[k]? with
  | some i =>
    obtain ⟨slots, index⟩ := putSlot_of_indexed (v := v) entry keyValue
    constructor <;> rw [slots, index]
    · intro k' j entry'
      obtain ⟨slot, place, key⟩ := linked.keyed entry'
      exact ⟨_, getElem?_modify_value.2 ⟨slot, place, rfl⟩, key⟩
    · intro j slot' place some'
      obtain ⟨slot, before, rfl⟩ := getElem?_modify_value.1 place
      by_cases here : i = j
      · subst here
        obtain ⟨written, before', rfl⟩ := linked.keyed entry
        rw [before] at before'
        cases before'
        exact entry
      · simp only [if_neg here] at some'
        have entry' := linked.found before some'
        exact entry'
  | none =>
    obtain ⟨slots, index⟩ := putSlot_of_new (v := v) entry keyValue
    constructor <;> rw [slots, index]
    · intro k' j entry'
      simp only [Std.HashMap.getElem?_insert, beq_iff_eq] at entry'
      rw [Array.getElem?_push]
      split at entry'
      · rename_i same
        cases entry'
        exact ⟨_, if_pos rfl, same⟩
      · obtain ⟨slot, place, key⟩ := linked.keyed entry'
        have inside := (Array.getElem?_eq_some_iff.1 place).1
        exact ⟨slot, (if_neg (Nat.ne_of_lt inside)).trans place, key⟩
    · intro j slot place some'
      rw [Array.getElem?_push] at place
      simp only [Std.HashMap.getElem?_insert, beq_iff_eq]
      split at place
      · rename_i last
        cases place
        rw [if_pos rfl, last]
      · have entry' := linked.found place some'
        rw [if_neg, entry']
        rintro rfl
        rw [entry] at entry'
        cases entry'

theorem slotValue_putSlot (k k' : Key) (keyValue v : Value) :
    (t.putSlot k keyValue v).slotValue k' = if k' = k then v else t.slotValue k' := by
  cases entry : t.index[k]? with
  | some i =>
    obtain ⟨slots, index⟩ := putSlot_of_indexed (v := v) entry keyValue
    rw [slotValue, slotValue, slots, index]
    by_cases same : k' = k
    · subst same
      obtain ⟨slot, place, -⟩ := linked.keyed entry
      simp [entry, place, Array.getElem?_modify]
    · cases entry' : t.index[k']? with
      | none => simp [same]
      | some j =>
        have elsewhere : i ≠ j := by
          rintro rfl
          exact same (linked.index_injective entry' entry)
        simp [same, Array.getElem?_modify, elsewhere]
  | none =>
    obtain ⟨slots, index⟩ := putSlot_of_new (v := v) entry keyValue
    rw [slotValue, slotValue, slots, index]
    by_cases same : k' = k
    · subst same
      simp
    · have other : ¬k = k' := fun h => same h.symm
      cases entry' : t.index[k']? with
      | none => simp [same, Std.HashMap.getElem?_insert, other, entry']
      | some j =>
        obtain ⟨slot, place, -⟩ := linked.keyed entry'
        have inside := (Array.getElem?_eq_some_iff.1 place).1
        simp [same, Std.HashMap.getElem?_insert, other, entry', Array.getElem?_push, Nat.ne_of_lt inside]

/-! ## Clearing a slot -/

theorem unlink (k : Key) : (t.unlink k).2.Linked := by
  cases entry : t.index[k]? with
  | none =>
    rw [unlink_of_new entry]
    exact linked
  | some i =>
    obtain ⟨slots, index⟩ := unlink_of_indexed entry
    constructor <;> rw [slots, index]
    · intro k' j entry'
      simp only [Std.HashMap.getElem?_erase, beq_iff_eq] at entry'
      split at entry'
      · cases entry'
      · obtain ⟨slot, place, key⟩ := linked.keyed entry'
        exact ⟨_, getElem?_modify_value.2 ⟨slot, place, rfl⟩, key⟩
    · intro j slot' place some'
      obtain ⟨slot, before, rfl⟩ := getElem?_modify_value.1 place
      by_cases here : i = j
      · simp only [if_pos here] at some'
        exact absurd rfl some'
      · simp only [if_neg here] at some'
        have entry' := linked.found before some'
        simp only [Std.HashMap.getElem?_erase, beq_iff_eq]
        rw [if_neg, entry']
        rintro rfl
        rw [entry] at entry'
        exact here (Option.some.inj entry')

theorem slotValue_unlink (k k' : Key) :
    (t.unlink k).2.slotValue k' = if k' = k then .nil else t.slotValue k' := by
  cases entry : t.index[k]? with
  | none =>
    rw [unlink_of_new entry]
    by_cases same : k' = k
    · rw [if_pos same, same, slotValue_of_not_indexed entry]
    · rw [if_neg same]
  | some i =>
    obtain ⟨slots, index⟩ := unlink_of_indexed entry
    rw [slotValue, slotValue, slots, index]
    by_cases same : k' = k
    · subst same
      simp
    · have other : ¬k = k' := fun h => same h.symm
      cases entry' : t.index[k']? with
      | none => simp [same, Std.HashMap.getElem?_erase, other, entry']
      | some j =>
        have elsewhere : i ≠ j := by
          rintro rfl
          exact same (linked.index_injective entry' entry)
        simp [same, Std.HashMap.getElem?_erase, other, entry', Array.getElem?_modify, elsewhere]

end Linked

theorem mem_index_unlink {k k' : Key} : k' ∈ (t.unlink k).2.index ↔ k' ≠ k ∧ k' ∈ t.index := by
  cases entry : t.index[k]? with
  | none =>
    rw [unlink_of_new entry]
    have absent : k ∉ t.index := by simp [← Std.HashMap.isSome_getElem?_iff_mem, entry]
    constructor
    · intro mem
      exact ⟨fun same => absent (same ▸ mem), mem⟩
    · exact And.right
  | some i =>
    rw [(unlink_of_indexed entry).2, Std.HashMap.mem_erase, beq_eq_false_iff_ne, ne_comm]

theorem mem_index_putSlot {k k' : Key} {keyValue : Value} :
    k' ∈ (t.putSlot k keyValue v).index ↔ k' = k ∨ k' ∈ t.index := by
  cases entry : t.index[k]? with
  | none => rw [(putSlot_of_new entry keyValue).2, Std.HashMap.mem_insert, beq_iff_eq, eq_comm]
  | some i =>
    have present : k ∈ t.index := by simp [← Std.HashMap.isSome_getElem?_iff_mem, entry]
    rw [(putSlot_of_indexed entry keyValue).2]
    constructor
    · exact .inr
    · rintro (rfl | mem)
      · exact present
      · exact mem

/-! ## Dropping the cleared slots -/

/-- The index of some slots: each key with the last place that has it. -/
def indexOf (slots : List Slot) : Std.HashMap Key Nat :=
  slots.zipIdx.foldl (fun index entry => index.insert entry.1.key entry.2) {}

theorem indexOf_concat (slots : List Slot) (slot : Slot) :
    indexOf (slots ++ [slot]) = (indexOf slots).insert slot.key slots.length := by
  rw [indexOf, List.zipIdx_append, List.foldl_append, Nat.zero_add]
  rfl

theorem index_compact (t : Table) : t.compact.index = indexOf t.compact.slots.toList := by
  show Array.foldl _ _ _ = _
  rw [← Array.foldl_toList, Array.toList_zipIdx]
  rfl

theorem key_of_indexOf {slots : List Slot} (entry : (indexOf slots)[k]? = some i) :
    ∃ slot, slots[i]? = some slot ∧ slot.key = k := by
  induction slots using List.reverseRecOn with
  | nil =>
    rw [indexOf, List.zipIdx_nil, List.foldl_nil, Std.HashMap.getElem?_empty] at entry
    cases entry
  | append_singleton slots last ih =>
    simp only [indexOf_concat, Std.HashMap.getElem?_insert, beq_iff_eq] at entry
    split at entry
    · rename_i same
      cases entry
      exact ⟨last, List.getElem?_concat_length, same⟩
    · obtain ⟨slot, place, key⟩ := ih entry
      have inside := (List.getElem?_eq_some_iff.1 place).1
      exact ⟨slot, (List.getElem?_append_left inside).trans place, key⟩

theorem indexOf_of_key {slots : List Slot} (apart : slots.Pairwise (·.key ≠ ·.key)) {slot : Slot}
    (place : slots[i]? = some slot) : (indexOf slots)[slot.key]? = some i := by
  induction slots using List.reverseRecOn with
  | nil => cases place
  | append_singleton slots last ih =>
    rw [List.pairwise_append] at apart
    obtain ⟨apart, -, others⟩ := apart
    simp only [indexOf_concat, Std.HashMap.getElem?_insert, beq_iff_eq]
    by_cases inside : i < slots.length
    · rw [List.getElem?_append_left inside] at place
      rw [if_neg, ih apart place]
      exact (others slot (List.mem_of_getElem? place) last (List.mem_singleton_self last)).symm
    · have at' : i = slots.length := by
        have := (List.getElem?_eq_some_iff.1 place).1
        rw [List.length_append, List.length_singleton] at this
        omega
      subst at'
      rw [List.getElem?_concat_length] at place
      cases place
      rw [if_pos rfl]

theorem mem_slots_compact {slot : Slot} : slot ∈ t.compact.slots ↔ slot ∈ t.slots ∧ slot.value ≠ .nil := by
  show slot ∈ t.slots.filter _ ↔ _
  rw [Array.mem_filter, Bool.not_eq_true', Value.isNil_eq_false_iff]

namespace Linked

variable (linked : t.Linked)
include linked

theorem compact : t.compact.Linked := by
  -- two slots that are not cleared and share a key would share their index entry
  have apart : t.compact.slots.toList.Pairwise (·.key ≠ ·.key) := by
    show (t.slots.filter _).toList.Pairwise _
    rw [Array.toList_filter, List.pairwise_filter, List.pairwise_iff_getElem]
    intro i j hi hj less first second same
    rw [Bool.not_eq_true', Value.isNil_eq_false_iff] at first second
    have entry := linked.found (Array.getElem?_toList.symm.trans (List.getElem?_eq_getElem hi)) first
    have entry' := linked.found (Array.getElem?_toList.symm.trans (List.getElem?_eq_getElem hj)) second
    rw [same, entry'] at entry
    have := Option.some.inj entry
    omega
  constructor <;> rw [index_compact]
  · intro k i entry
    obtain ⟨slot, place, key⟩ := key_of_indexOf entry
    exact ⟨slot, Array.getElem?_toList.symm.trans place, key⟩
  · intro i slot place _
    exact indexOf_of_key apart (Array.getElem?_toList.trans place)

theorem slotValue_compact (k : Key) : t.compact.slotValue k = t.slotValue k := by
  by_cases none : t.slotValue k = .nil
  · by_contra differ
    rw [none] at differ
    obtain ⟨slot, mem, key, value⟩ := (linked.compact.slotValue_eq_iff differ).1 rfl
    obtain ⟨mem, some'⟩ := mem_slots_compact.1 mem
    rw [(linked.slotValue_eq_iff some').2 ⟨slot, mem, key, rfl⟩] at none
    exact some' none
  · obtain ⟨slot, mem, key, value⟩ := (linked.slotValue_eq_iff none).1 rfl
    rw [linked.compact.slotValue_eq_iff none]
    exact ⟨slot, mem_slots_compact.2 ⟨mem, value ▸ none⟩, key, value⟩

theorem mem_index_compact (h : k ∈ t.compact.index) : k ∈ t.index := by
  rw [← Std.HashMap.isSome_getElem?_iff_mem, Option.isSome_iff_exists] at h ⊢
  obtain ⟨i, entry⟩ := h
  obtain ⟨slot, place, rfl⟩ := linked.compact.keyed entry
  obtain ⟨mem, some'⟩ := mem_slots_compact.1 (Array.mem_of_getElem? place)
  obtain ⟨j, place'⟩ := Array.getElem?_of_mem mem
  exact ⟨j, linked.found place' some'⟩

end Linked

end Table

end ScriptEngine
