import ScriptEngine.Proofs.Table.Map

/-!
# The rows of a table

Array positions and slots, one after the other, are the rows of a table: a key and a value each, the value
`nil` where the entry is cleared (`rows`). A key that has a row is read there (`get_eq_row`), and a
traversal goes on with the rows behind it (`next_of_place`). The rows that are not cleared are the entries
(`get_eq_iff_entry`).

Beside the agreement of index and slots this needs that a slot carries the key of its value and that the
slots in use are counted (`Filed`), which every write keeps (`filed_written`).
-/

set_option linter.dupNamespace false

namespace ScriptEngine.Table

variable {t : Table} {k : Key} {keyValue v : Value} {i : Nat}

/-! ## What the slots hold -/

/-- A slot carries the key of its value, and the slots that are not cleared are counted. -/
structure Filed (t : Table) : Prop where
  named : ∀ slot ∈ t.slots, Key.ofValue slot.keyValue = .ok slot.key
  counted : t.live = t.slots.countP fun slot => !slot.value.isNil

theorem filed_empty : Filed {} where
  named _ mem := absurd mem (Array.not_mem_empty _)
  counted := rfl

/-- Replacing the value of a slot changes the count of filled slots by that slot alone. -/
theorem countP_modify_value {slots : Array Slot} {slot : Slot} (place : slots[i]? = some slot) :
    (slots.modify i ({ · with value := v })).countP (fun slot => !slot.value.isNil) =
      slots.countP (fun slot => !slot.value.isNil) - (if slot.value.isNil then 0 else 1) +
        (if v.isNil then 0 else 1) := by
  obtain ⟨inside, rfl⟩ := Array.getElem?_eq_some_iff.1 place
  have list : slots.toList[i]? = some slots[i] := Array.getElem?_toList.trans place
  rw [← Array.countP_toList, ← Array.countP_toList, Array.toList_modify, List.modify_eq_set_getElem?, list]
  show List.countP _ (slots.toList.set i _) = _
  rw [List.countP_set (Array.length_toList ▸ inside), Array.countP_toList, Array.getElem_toList]
  cases slots[i].value.isNil <;> cases v.isNil <;> rfl

theorem named_modify_value {slots : Array Slot}
    (named : ∀ slot ∈ slots, Key.ofValue slot.keyValue = .ok slot.key) :
    ∀ slot ∈ slots.modify i ({ · with value := v }), Key.ofValue slot.keyValue = .ok slot.key := by
  intro slot' mem
  obtain ⟨j, place⟩ := Array.getElem?_of_mem mem
  obtain ⟨slot, before, rfl⟩ := getElem?_modify_value.1 place
  exact named slot (Array.mem_of_getElem? before)

namespace Filed

variable (filed : t.Filed)
include filed

/-- The array part does not matter. -/
theorem withArray (array : Array Value) : Filed { t with array } := ⟨filed.named, filed.counted⟩

theorem putSlot (linked : t.Linked) (key : Key.ofValue keyValue = .ok k) (v : Value) :
    (t.putSlot k keyValue v).Filed := by
  cases entry : t.index[k]? with
  | some i =>
    obtain ⟨slot, place, -⟩ := linked.keyed entry
    constructor
    · rw [(putSlot_of_indexed entry keyValue).1]
      exact named_modify_value filed.named
    · rw [(putSlot_of_indexed entry keyValue).1, countP_modify_value place, ← filed.counted]
      simp only [Table.putSlot, entry, place]
  | none =>
    constructor
    · rw [(putSlot_of_new entry keyValue).1]
      intro slot mem
      rcases Array.mem_push.1 mem with mem | rfl
      · exact filed.named slot mem
      · exact key
    · rw [(putSlot_of_new entry keyValue).1, Array.countP_push, ← filed.counted]
      simp only [Table.putSlot, entry]
      cases v.isNil <;> rfl

theorem unlink (linked : t.Linked) (k : Key) : (t.unlink k).2.Filed := by
  cases entry : t.index[k]? with
  | none =>
    rw [unlink_of_new entry]
    exact filed
  | some i =>
    obtain ⟨slot, place, -⟩ := linked.keyed entry
    constructor
    · rw [(unlink_of_indexed entry).1]
      exact named_modify_value filed.named
    · rw [(unlink_of_indexed entry).1, countP_modify_value place, ← filed.counted]
      simp only [Table.unlink, entry, place, Option.map_some, Option.getD_some]
      rfl

theorem migrate (linked : t.Linked) : t.migrate.Filed := by
  fun_induction Table.migrate t with
  | case1 t taken done => exact filed.unlink linked _
  | case2 t taken more _ ih => exact ih ((filed.unlink linked _).withArray _) ((linked.unlink _).withArray _)

theorem compact : t.compact.Filed where
  named slot mem := filed.named slot (mem_slots_compact.1 mem).1
  counted := by
    show t.live = (t.slots.filter _).countP _
    rw [Array.countP_filter, filed.counted]
    simp only [Bool.and_self]

theorem assign (linked : t.Linked) (key : Key.ofValue keyValue = .ok k) (v : Value) :
    (t.assign k keyValue v).Filed := by
  have slot : (assign.assignSlot k keyValue v t).Filed := by
    unfold assign.assignSlot
    split
    · exact filed.putSlot linked key v
    · split
      · exact filed
      · split
        · exact filed.compact.putSlot linked.compact key v
        · exact filed.putSlot linked key v
  unfold Table.assign
  split
  · split
    · exact filed.withArray _
    · split
      · exact ((filed.unlink linked k).withArray _).migrate ((linked.unlink k).withArray _)
      · exact slot
  · exact slot

theorem apply (linked : t.Linked) (w : Write) : (w.apply t).Filed := by
  cases accepted : w.key.isKey with
  | false =>
    rw [Write.apply_of_not_key accepted]
    exact filed
  | true =>
    obtain ⟨k, key⟩ := Key.ofValue_of_isKey accepted
    rw [Write.apply_of_key key]
    exact filed.assign linked key w.content

end Filed

theorem filed_written (writes : List Write) : (written writes).Filed := by
  induction writes using List.reverseRecOn with
  | nil => exact filed_empty
  | append_singleton writes w ih =>
    rw [written_concat]
    exact ih.apply (regular_written writes).1.toLinked w

/-! ## Rows -/

/-- Array positions and slots, each as a key with a value, in the order of traversal. -/
def rows (t : Table) : List (Value × Value) :=
  (t.array.toList.zipIdx.map fun (value, i) => (Value.number (Float.ofNat (i + 1)), value)) ++
  t.slots.toList.map fun slot => (slot.keyValue, slot.value)

/-- Whether a row is not cleared. -/
def filled (row : Value × Value) : Bool := !row.2.isNil

theorem filled_iff {row : Value × Value} : filled row = true ↔ row.2 ≠ .nil := by
  rw [filled, Bool.not_eq_true', Value.isNil_eq_false_iff]

theorem entries_eq (t : Table) : t.entries = t.rows.filter filled := by
  rw [entries, rows, List.filter_append, List.filter_map, List.filter_map, ← List.filterMap_eq_filter,
    ← List.filterMap_eq_filter, List.map_filterMap, List.map_filterMap]
  congr 1
  · refine List.filterMap_congr fun entry _ => ?_
    cases cleared : entry.1.isNil <;> simp [Option.guard, filled, cleared]
  · refine List.filterMap_congr fun slot _ => ?_
    cases cleared : slot.value.isNil <;> simp [Option.guard, filled, cleared]

theorem rows_array (inside : i < t.array.size) :
    t.rows[i]? = some (.number (Float.ofNat (i + 1)), t.array[i]) := by
  rw [rows, List.getElem?_append_left (by simpa using inside)]
  simp [inside]

theorem rows_slot (t : Table) (i : Nat) :
    t.rows[t.array.size + i]? = (t.slots[i]?).map fun slot => (slot.keyValue, slot.value) := by
  rw [rows, List.getElem?_append_right (by simp)]
  simp

theorem length_rows (t : Table) : t.rows.length = t.array.size + t.slots.size := by
  simp [rows]

/-- The first row from `start` on that is not cleared. -/
def rowFrom (t : Table) (start : Nat) : Option (Value × Value) := (t.rows.drop start).find? filled

theorem slotEntryFrom_eq (t : Table) (i : Nat) :
    slotEntryFrom t.slots i = t.rowFrom (t.array.size + i) := by
  fun_induction slotEntryFrom t.slots i with
  | case1 i inside cleared ih =>
    have within : t.array.size + i < t.rows.length := by rw [length_rows]; omega
    have row : t.rows[t.array.size + i] = (t.slots[i].keyValue, t.slots[i].value) := by
      rw [← Option.some_inj, ← List.getElem?_eq_getElem, rows_slot, Array.getElem?_eq_getElem inside]
      rfl
    rw [ih, rowFrom, rowFrom, List.drop_eq_getElem_cons within, row, List.find?_cons_of_neg]
    · rfl
    · simp [filled, cleared]
  | case2 i inside held =>
    have within : t.array.size + i < t.rows.length := by rw [length_rows]; omega
    have row : t.rows[t.array.size + i] = (t.slots[i].keyValue, t.slots[i].value) := by
      rw [← Option.some_inj, ← List.getElem?_eq_getElem, rows_slot, Array.getElem?_eq_getElem inside]
      rfl
    rw [rowFrom, List.drop_eq_getElem_cons within, row, List.find?_cons_of_pos]
    exact filled_iff.2 (held ∘ Value.isNil_iff.2)
  | case3 i outside =>
    rw [rowFrom, List.drop_eq_nil_of_le, List.find?_nil]
    rw [length_rows]
    omega

theorem entryFrom_eq (t : Table) (i : Nat) (inside : i ≤ t.array.size) :
    t.entryFrom i 0 = t.rowFrom i := by
  unfold entryFrom
  fun_induction arrayEntryFrom t.array i with
  | case1 i within cleared ih =>
    have more : i < t.rows.length := by rw [length_rows]; omega
    have row : t.rows[i] = (.number (Float.ofNat (i + 1)), t.array[i]) := by
      rw [← Option.some_inj, ← List.getElem?_eq_getElem, rows_array within]
    rw [ih within, rowFrom, rowFrom, List.drop_eq_getElem_cons more, row, List.find?_cons_of_neg]
    simp [filled, cleared]
  | case2 i within held =>
    have more : i < t.rows.length := by rw [length_rows]; omega
    have row : t.rows[i] = (.number (Float.ofNat (i + 1)), t.array[i]) := by
      rw [← Option.some_inj, ← List.getElem?_eq_getElem, rows_array within]
    rw [rowFrom, List.drop_eq_getElem_cons more, row, List.find?_cons_of_pos]
    exact filled_iff.2 (held ∘ Value.isNil_iff.2)
  | case3 i outside =>
    have last : i = t.array.size := by omega
    rw [last]
    exact slotEntryFrom_eq t 0

/-! ## The row of a key -/

/-- The row at which a key is read and written, and behind which a traversal goes on. -/
def place? (t : Table) (key : Value) : Option Nat :=
  match (arrayIndex? key).filter (· < t.array.size) with
  | some i => some i
  | none =>
    match Key.ofValue key with
    | .ok k => (t.index[k]?).map (t.array.size + ·)
    | .error _ => none

theorem place?_array (position : arrayIndex? keyValue = some i) (inside : i < t.array.size) :
    t.place? keyValue = some i := by
  rw [place?, position, Option.filter_some, if_pos (decide_eq_true inside)]

theorem place?_slot (key : Key.ofValue keyValue = .ok k)
    (outside : ∀ i, arrayIndex? keyValue = some i → t.array.size ≤ i) :
    t.place? keyValue = (t.index[k]?).map (t.array.size + ·) := by
  have none : (arrayIndex? keyValue).filter (· < t.array.size) = none := by
    rw [Option.filter_eq_none_iff]
    intro i position
    simpa using outside i position
  rw [place?, none, key]

/-- The row of a key is its array position or its slot. -/
theorem place?_cases (place : t.place? keyValue = some i) :
    (arrayIndex? keyValue = some i ∧ i < t.array.size) ∨
      ∃ k j, Key.ofValue keyValue = .ok k ∧ t.index[k]? = some j ∧ i = t.array.size + j ∧
        ∀ i, arrayIndex? keyValue = some i → t.array.size ≤ i := by
  by_cases inside : ∃ j, arrayIndex? keyValue = some j ∧ j < t.array.size
  · obtain ⟨j, position, within⟩ := inside
    rw [place?_array position within] at place
    cases place
    exact .inl ⟨position, within⟩
  · have outside : ∀ i, arrayIndex? keyValue = some i → t.array.size ≤ i :=
      fun i position => Nat.le_of_not_lt fun within => inside ⟨i, position, within⟩
    cases key : Key.ofValue keyValue with
    | error =>
      have none : (arrayIndex? keyValue).filter (· < t.array.size) = none := by
        rw [Option.filter_eq_none_iff]
        intro i position
        simpa using outside i position
      rw [place?, none, key] at place
      cases place
    | ok k =>
      rw [place?_slot key outside, Option.map_eq_some_iff] at place
      obtain ⟨j, entry, same⟩ := place
      exact .inr ⟨k, j, rfl, entry, same.symm, outside⟩

theorem isKey_of_place (place : t.place? keyValue = some i) : keyValue.isKey = true := by
  rcases place?_cases place with ⟨position, -⟩ | ⟨k, j, key, -⟩
  · obtain ⟨x, rfl, integral, -⟩ := number_of_arrayIndex? position
    rw [Value.isKey, Number.isNaN_of_isIntegral integral]
    rfl
  · exact Key.isKey_of_ofValue key

/-- The row of a value depends on its key only. -/
theorem place?_congr {other : Value} (key : Key.ofValue keyValue = .ok k) (key' : Key.ofValue other = .ok k) :
    t.place? keyValue = t.place? other := by
  rw [place?, place?, arrayIndex?_congr key key', key, key']

/-- Equal values have the same row. -/
theorem place?_of_beq {other : Value} (place : t.place? keyValue = some i)
    (place' : t.place? other ≠ some i) : (keyValue == other) = false := by
  have isKey := isKey_of_place place
  cases isKey' : other.isKey with
  | false => exact Key.beq_of_not_isKey isKey isKey'
  | true =>
    refine Bool.eq_false_of_not_eq_true fun equal => place' ?_
    obtain ⟨k, key⟩ := Key.ofValue_of_isKey isKey
    have key' := (Key.beq_iff_ofValue isKey isKey').1 equal
    rw [← place?_congr key (key' ▸ key), place]

/-- Values with the same row are equal. -/
theorem Linked.beq_of_place (linked : t.Linked) {other : Value} (place : t.place? keyValue = some i)
    (place' : t.place? other = some i) : (keyValue == other) = true := by
  rw [Key.beq_iff_ofValue (isKey_of_place place) (isKey_of_place place')]
  rcases place?_cases place with ⟨position, within⟩ | ⟨k, j, key, entry, rfl, -⟩
  · rcases place?_cases place' with ⟨position', -⟩ | ⟨k', j', -, -, rfl, -⟩
    · rw [eq_of_arrayIndex? position position']
    · omega
  · rcases place?_cases place' with ⟨-, within⟩ | ⟨k', j', key', entry', same, -⟩
    · omega
    · rw [key, key', linked.index_injective entry (Nat.add_left_cancel same ▸ entry')]

/-- Every key is read at its row. -/
theorem get_of_place (place : t.place? keyValue = some i) :
    t.get keyValue = ((t.rows[i]?).map Prod.snd).getD .nil := by
  rcases place?_cases place with ⟨position, within⟩ | ⟨k, j, key, entry, rfl, outside⟩
  · obtain ⟨k, key⟩ := Key.ofValue_of_isKey (isKey_of_place place)
    rw [get_of_key key, position, Option.bind_some, Array.getElem?_eq_getElem within, rows_array within]
    rfl
  · rw [get_of_outside key outside, slotValue, entry, rows_slot, Option.map_map]
    rfl

/-- What has no row reads as `nil`. -/
theorem get_of_no_place (none : t.place? keyValue = none) : t.get keyValue = .nil := by
  cases isKey : keyValue.isKey with
  | false => exact get_of_not_key isKey
  | true =>
    obtain ⟨k, key⟩ := Key.ofValue_of_isKey isKey
    have outside : ∀ i, arrayIndex? keyValue = some i → t.array.size ≤ i := by
      intro i position
      refine Nat.le_of_not_lt fun within => ?_
      rw [place?_array position within] at none
      cases none
    rw [place?_slot key outside, Option.map_eq_none_iff] at none
    rw [get_of_outside key outside, slotValue_of_not_indexed none]

theorem next_nil (t : Table) : t.next .nil = .ok (t.rowFrom 0) := by
  rw [next, if_pos (show Value.nil.isNil = true from rfl), entryFrom_eq t 0 (Nat.zero_le _)]

/-- A traversal goes on with the rows behind that of the key. -/
theorem next_of_place (place : t.place? keyValue = some i) : t.next keyValue = .ok (t.rowFrom (i + 1)) := by
  have some' : ¬keyValue.isNil = true := by
    rintro cleared
    rw [Value.isNil_iff.1 cleared] at place
    cases isKey_of_place place
  unfold next
  dsimp only
  rw [if_neg some']
  rcases place?_cases place with ⟨position, within⟩ | ⟨k, j, key, entry, rfl, outside⟩
  · rw [position]
    exact (if_pos within).trans (congrArg _ (entryFrom_eq t (i + 1) within))
  · have slots : t.entryFrom t.array.size (j + 1) = t.rowFrom (t.array.size + j + 1) := by
      rw [entryFrom, arrayEntryFrom, dif_neg (Nat.lt_irrefl _)]
      exact slotEntryFrom_eq t (j + 1)
    rw [key]
    simp only [bind, Except.bind, entry, pure, Except.pure, slots]
    split
    · rename_i i position
      exact if_neg (Nat.not_lt.2 (outside i position))
    · rfl

/-! ## Entries -/

/-- A row that is not cleared is the row of its key. -/
theorem Regular.place_of_row (regular : t.Regular) (filed : t.Filed) {key : Value}
    (row : t.rows[i]? = some (key, v)) (some' : v ≠ .nil) : t.place? key = some i := by
  by_cases inside : i < t.array.size
  · rw [rows_array inside] at row
    cases row
    exact place?_array (arrayIndex?_ofNat (Nat.lt_of_lt_of_le inside regular.short)) inside
  · obtain ⟨j, rfl⟩ := Nat.exists_eq_add_of_le (Nat.le_of_not_lt inside)
    rw [rows_slot, Option.map_eq_some_iff] at row
    obtain ⟨slot, place, same⟩ := row
    cases same
    have named := filed.named slot (Array.mem_of_getElem? place)
    have entry := regular.found place some'
    have mem : slot.key ∈ t.index := Std.HashMap.mem_iff_isSome_getElem?.2 (Option.isSome_of_eq_some entry)
    rw [place?_slot named fun i position => Nat.le_of_succ_le (regular.apart named mem position), entry]
    rfl

theorem mem_entries {row : Value × Value} :
    row ∈ t.entries ↔ ∃ i : Nat, t.rows[i]? = some row ∧ row.2 ≠ .nil := by
  rw [entries_eq, List.mem_filter, List.mem_iff_getElem?, filled_iff, exists_and_right]

/-- The entries are what is read: each key that is not `nil` has one, under a key equal to it. -/
theorem Regular.get_eq_iff_entry (regular : t.Regular) (filed : t.Filed) (key : Value) (some' : v ≠ .nil) :
    t.get key = v ↔ ∃ key', (key', v) ∈ t.entries ∧ (key' == key) = true := by
  simp only [mem_entries]
  constructor
  · rintro rfl
    cases place : t.place? key with
    | none => exact absurd (get_of_no_place place) some'
    | some i =>
      rw [get_of_place place] at some' ⊢
      cases row : t.rows[i]? with
      | none => simp [row] at some'
      | some entry =>
        rw [row] at some'
        have here := regular.place_of_row filed row some'
        exact ⟨entry.1, ⟨i, row, some'⟩, regular.toLinked.beq_of_place here place⟩
  · rintro ⟨key', ⟨i, row, -⟩, equal⟩
    have here := regular.place_of_row filed row some'
    have place : t.place? key = some i := by
      by_contra elsewhere
      rw [place?_of_beq here elsewhere] at equal
      cases equal
    rw [get_of_place place, row]
    rfl

/-- A table is empty if it has no entries. -/
theorem Filed.isEmpty_iff (filed : t.Filed) : t.isEmpty = true ↔ t.entries = [] := by
  rw [isEmpty, Bool.and_eq_true, beq_iff_eq, filed.counted, Array.countP_eq_zero, Array.all_eq_true']
  constructor
  · rintro ⟨slots, array⟩
    rw [List.eq_nil_iff_forall_not_mem]
    intro row mem
    obtain ⟨i, row, some'⟩ := mem_entries.1 mem
    by_cases inside : i < t.array.size
    · rw [rows_array inside] at row
      cases row
      exact some' (Value.isNil_iff.1 (array _ (Array.getElem_mem inside)))
    · obtain ⟨j, rfl⟩ := Nat.exists_eq_add_of_le (Nat.le_of_not_lt inside)
      rw [rows_slot, Option.map_eq_some_iff] at row
      obtain ⟨slot, place, rfl⟩ := row
      exact slots slot (Array.mem_of_getElem? place) ((@filled_iff (slot.keyValue, slot.value)).2 some')
  · intro none
    have cleared {i : Nat} {row : Value × Value} (place : t.rows[i]? = some row) : row.2 = .nil := by
      by_contra some'
      have mem := mem_entries.2 ⟨i, place, some'⟩
      rw [none] at mem
      cases mem
    constructor
    · intro slot mem some'
      obtain ⟨j, place⟩ := Array.getElem?_of_mem mem
      have row := rows_slot t j
      rw [place] at row
      exact (@filled_iff (slot.keyValue, slot.value)).1 some' (cleared row)
    · intro v mem
      obtain ⟨i, inside, rfl⟩ := Array.getElem_of_mem mem
      exact Value.isNil_iff.2 (cleared (rows_array inside))

end ScriptEngine.Table
