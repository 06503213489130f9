import Std.Data.HashMap
import ScriptEngine.Table.Key

/-!
# Tables

A table maps keys to values. The keys `1 .. n` live in a dense array part; all others live in slots
in the order of their insertion, with an index from keys to slots, so that `next` can go on from any
key. A cleared slot keeps its place until the slots are compacted, which lets a traversal step past
the entries it clears. A table may have a metatable, which serves as its prototype.
-/

namespace ScriptEngine

/-- An entry of the slot part. -/
structure Slot where
  key : Key
  /-- The key as the value it was first written with. -/
  keyValue : Value
  value : Value

structure Table where
  /-- Position `i` holds the value of key `i + 1`. -/
  array : Array Value := #[]
  slots : Array Slot := #[]
  index : Std.HashMap Key Nat := {}
  /-- The number of slots that are not cleared. -/
  live : Nat := 0
  metatable : Option Nat := none
  deriving Inhabited

namespace Table

/-- The array position of an integer key from 1 upwards. -/
def arrayIndex? : Value → Option Nat
  | .number n =>
    if Number.isIntegral n ∧ 1 ≤ Number.truncate n then some ((Number.truncate n).toNat - 1) else none
  | _ => none

/-- The value in the slot of `key`. -/
def slotValue (t : Table) (key : Key) : Value :=
  match t.index[key]? with
  | some i => ((t.slots[i]?).map Slot.value).getD .nil
  | none => .nil

/-- The value of a key in the table itself. -/
def get (t : Table) (key : Value) : Value :=
  match (arrayIndex? key).bind (t.array[·]?) with
  | some value => value
  | none =>
    match Key.ofValue key with
    | .ok k => t.slotValue k
    | .error _ => .nil

/-- Writes a value into the slot of `key`, a new one if it has none. -/
def putSlot (t : Table) (key : Key) (keyValue value : Value) : Table :=
  let filled := if value.isNil then 0 else 1
  match t.index[key]? with
  | some i =>
    let freed := match t.slots[i]? with
      | some slot => if slot.value.isNil then 0 else 1
      | none => 0
    { t with slots := t.slots.modify i ({ · with value }), live := t.live - freed + filled }
  | none =>
    let place := t.slots.size
    { t with
      index := t.index.insert key place
      slots := t.slots.push ⟨key, keyValue, value⟩
      live := t.live + filled }

/-- Takes `key` out of the index and clears its slot; the value it had comes back too. -/
def unlink (t : Table) (key : Key) : Value × Table :=
  match t.index[key]? with
  | none => (.nil, t)
  | some i =>
    let value := ((t.slots[i]?).map Slot.value).getD .nil
    let freed := if value.isNil then 0 else 1
    (value,
      { t with
        index := t.index.erase key
        slots := t.slots.modify i ({ · with value := .nil })
        live := t.live - freed })

theorem size_index_unlink_lt {t : Table} {key : Key} (h : ¬(t.unlink key).1.isNil) :
    (t.unlink key).2.index.size < t.index.size := by
  unfold unlink at h ⊢
  split at h
  · simp [Value.isNil] at h
  · rename_i i found
    have mem : key ∈ t.index := by
      rw [Std.HashMap.mem_iff_isSome_getElem?, found]
      rfl
    have pos : 0 < t.index.size := by
      rcases Nat.eq_zero_or_pos t.index.size with zero | pos
      · have empty : t.index.isEmpty = true := by
          rw [Std.HashMap.isEmpty_eq_size_eq_zero]
          simpa using zero
        exact absurd mem (Std.HashMap.not_mem_of_isEmpty empty)
      · exact pos
    simp only [Std.HashMap.size_erase, mem, if_true]
    omega

/-- Moves the keys that continue the array part out of the slots. -/
def migrate (t : Table) : Table :=
  let taken := t.unlink (Key.ofNat (t.array.size + 1))
  if h : taken.1.isNil then taken.2
  else
    have : taken.2.index.size < t.index.size := size_index_unlink_lt h
    migrate { taken.2 with array := taken.2.array.push taken.1 }
termination_by t.index.size

/-- Drops the cleared slots. -/
def compact (t : Table) : Table :=
  let slots := t.slots.filter fun slot => !slot.value.isNil
  { t with
    slots
    index := slots.zipIdx.foldl (fun index (slot, i) => index.insert slot.key i) {} }

/-- Writes a value under a key; `nil` clears the entry. -/
def assign (t : Table) (key : Key) (keyValue value : Value) : Table :=
  match arrayIndex? keyValue with
  | some i =>
    if i < t.array.size then { t with array := t.array.setIfInBounds i value }
    else if i = t.array.size ∧ !value.isNil then
      let t := (t.unlink key).2
      migrate { t with array := t.array.push value }
    else assignSlot t
  | none => assignSlot t
where
  /-- Writes into the slot part; a new key may first drop the cleared slots. -/
  assignSlot (t : Table) : Table :=
    if t.index.contains key then t.putSlot key keyValue value
    else if value.isNil then t
    else if 2 * t.live + 8 ≤ t.slots.size then t.compact.putSlot key keyValue value
    else t.putSlot key keyValue value

/-- Writes a value under a value that must stand for a key. -/
def set (t : Table) (key value : Value) : Except Fault Table :=
  (Key.ofValue key).map fun k => t.assign k key value

/-- Writes a value under a string. -/
def setString (t : Table) (key : String) (value : Value) : Table :=
  t.assign (.string key) (.string key) value

/-- Narrows a border of `array` down to one: position `lo` is filled or 0, position `hi` is empty. -/
def bisect (array : Array Value) (lo hi : Nat) : Nat :=
  if 1 < hi - lo then
    let mid := (lo + hi) / 2
    if ((array[mid - 1]?).getD .nil).isNil then bisect array lo mid else bisect array mid hi
  else lo
termination_by hi - lo

/-- A border of the sequence: a position that is filled, or 0, and that an empty one follows. -/
def length (t : Table) : Nat :=
  match t.array.back? with
  | some last => if last.isNil then bisect t.array 0 t.array.size else t.array.size
  | none => 0

def isEmpty (t : Table) : Bool := t.live == 0 && t.array.all Value.isNil

/-- The first filled array position from `i` on, as an entry. -/
def arrayEntryFrom (array : Array Value) (i : Nat) : Option (Value × Value) :=
  if h : i < array.size then
    if array[i].isNil then arrayEntryFrom array (i + 1)
    else some (.number (Float.ofNat (i + 1)), array[i])
  else none
termination_by array.size - i

/-- The first slot from `i` on that is not cleared, as an entry. -/
def slotEntryFrom (slots : Array Slot) (i : Nat) : Option (Value × Value) :=
  if h : i < slots.size then
    if slots[i].value.isNil then slotEntryFrom slots (i + 1)
    else some (slots[i].keyValue, slots[i].value)
  else none
termination_by slots.size - i

/-- The first entry from an array position and a slot on, array positions first. -/
def entryFrom (t : Table) (arrayFrom slotFrom : Nat) : Option (Value × Value) :=
  match arrayEntryFrom t.array arrayFrom with
  | some entry => some entry
  | none => slotEntryFrom t.slots slotFrom

/-- The entry that follows the one of `key`, or the first one if `key` is `nil`. -/
def next (t : Table) (key : Value) : Except Fault (Option (Value × Value)) :=
  let bySlot : Except Fault (Option (Value × Value)) := do
    match t.index[← Key.ofValue key]? with
    | some i => pure (t.entryFrom t.array.size (i + 1))
    | none => throw (.runtime "invalid key to 'next'")
  if key.isNil then .ok (t.entryFrom 0 0)
  else match arrayIndex? key with
    | some i => if i < t.array.size then .ok (t.entryFrom (i + 1) 0) else bySlot
    | none => bySlot

/-- All entries in the order of traversal. -/
def entries (t : Table) : List (Value × Value) :=
  (t.array.toList.zipIdx.filterMap fun (value, i) =>
    if value.isNil then none else some (.number (Float.ofNat (i + 1)), value)) ++
  (t.slots.toList.filterMap fun slot =>
    if slot.value.isNil then none else some (slot.keyValue, slot.value))

/-- A summary of the representation. -/
def debugText (t : Table) : String :=
  "Table \x7b array: " ++ toString t.array.size ++ ", hash: " ++ toString t.live ++
    ", has_metatable: " ++ toString t.metatable.isSome ++ " \x7d"

end Table

end ScriptEngine
