import ScriptEngine.Proofs.Machine.Reach
import ScriptEngine.Proofs.Table.Slots

/-!
# Where multi-values are not

A multi-value is a list in flight, so it must not get to where things stay: a table, a fault that a script
can catch, a cell that a closure captured. A store is `Plain` if its tables hold none, its cells hold none
with another one inside, and no captured cell holds one; it `Keeps` its plain cells if none of them comes
to hold one. A function of the host is `Plain` if it adds no multi-value of its own: given plain arguments it
has plain results or a plain fault. All functions of the base library are.
-/

set_option linter.dupNamespace false

namespace ScriptEngine

/-! ## Values -/

namespace Value

def AllPlain (vs : List Value) : Prop := ∀ v ∈ vs, v.isPlain = true

/-- A multi-value has no other one inside. -/
def IsFlat : Value → Prop
  | multi vs => AllPlain vs
  | _ => True

variable {v : Value} {vs : List Value}

theorem isFlat_of_isPlain (h : v.isPlain = true) : v.IsFlat := by
  cases v with
  | multi vs => cases h
  | _ => trivial

theorem IsFlat.first (h : v.IsFlat) : v.first.isPlain = true := by
  cases v with
  | multi vs =>
    cases vs with
    | nil => rfl
    | cons v vs => exact h v List.mem_cons_self
  | _ => rfl

theorem IsFlat.spread (h : v.IsFlat) : AllPlain v.spread := by
  cases v with
  | multi vs => exact h
  | _ => simp [AllPlain, Value.spread, isPlain]

theorem AllPlain.cons (h : v.isPlain = true) (rest : AllPlain vs) : AllPlain (v :: vs) :=
  List.forall_mem_cons.2 ⟨h, rest⟩

theorem AllPlain.append {ws : List Value} (h : AllPlain vs) (h' : AllPlain ws) : AllPlain (vs ++ ws) :=
  List.forall_mem_append.2 ⟨h, h'⟩

theorem AllPlain.drop (h : AllPlain vs) (n : Nat) : AllPlain (vs.drop n) :=
  fun v mem => h v (List.mem_of_mem_drop mem)

theorem AllPlain.trues (h : AllPlain vs) (n : Nat) :
    AllPlain (List.replicate n (Value.boolean true) ++ vs) :=
  .append (fun v mem => by rw [List.eq_of_mem_replicate mem]; rfl) h

theorem AllPlain.adjust (h : AllPlain vs) (n : Nat) : AllPlain (Value.adjust n vs) :=
  .append (fun v mem => h v (List.mem_of_mem_take mem)) fun v mem => by
    rw [List.eq_of_mem_replicate mem]
    rfl

theorem AllPlain.getD (h : AllPlain vs) (i : Nat) : ((vs[i]?).getD nil).isPlain = true := by
  cases found : vs[i]? with
  | none => rfl
  | some v => exact h v (List.mem_of_getElem? found)

theorem AllPlain.argument (h : AllPlain vs) (i : Nat) : (Value.argument vs i).isPlain = true := h.getD _

/-- What lands on the stack for someone who wants at least one result. -/
theorem AllPlain.delivered (h : AllPlain vs) {want : Nat} (some' : want ≠ 0) :
    AllPlain (ScriptEngine.delivered want vs) := by
  rw [ScriptEngine.delivered, if_neg some']
  exact h.adjust want

theorem AllPlain.delivered_flat (h : AllPlain vs) (want : Nat) :
    ∀ v ∈ ScriptEngine.delivered want vs, v.IsFlat := by
  by_cases none' : want = 0
  · rw [ScriptEngine.delivered, if_pos none']
    intro v mem
    rw [List.mem_singleton.1 mem]
    exact h
  · exact fun v mem => isFlat_of_isPlain (h.delivered none' v mem)

end Value

namespace Fault

/-- The fault carries no multi-value. -/
def IsPlain : Fault → Prop
  | raised v => v.isPlain = true
  | located _ _ inner => inner.IsPlain
  | _ => True

theorem IsPlain.toValue {fault : Fault} (h : fault.IsPlain) : fault.toValue.isPlain = true := by
  cases fault <;> first | exact h | rfl

theorem IsPlain.locate {fault : Fault} (h : fault.IsPlain) (source : String) (line : Nat) :
    (fault.locate source line).IsPlain := by
  cases fault <;> exact h

end Fault

/-- There is a result as `P` says, or a plain fault. -/
def PlainOr {α : Type} (P : α → Prop) : Except Fault α → Prop
  | .ok a => P a
  | .error fault => fault.IsPlain

theorem PlainOr.bind {α β : Type} {P : α → Prop} {Q : β → Prop} {e : Except Fault α} {f : α → Except Fault β}
    (first : PlainOr P e) (second : ∀ a, P a → PlainOr Q (f a)) : PlainOr Q (e >>= f) := by
  cases e with
  | ok a => exact second a first
  | error fault => exact first

/-- The fault of a text that cannot be compiled. -/
theorem Compiler.compileSource_plain (text label : String) :
    PlainOr (fun _ => True) (compileSource text label) := by
  refine .bind (P := fun _ => True) ?_ fun body _ => ?_
  · cases Parser.parse text with
    | ok body => trivial
    | error flaw => trivial
  · cases compile label body with
    | ok unit => trivial
    | error flaw => cases flaw <;> trivial

/-! ## Tables -/

namespace Table

/-- Neither a key nor a value of the table is a multi-value. -/
structure IsPlain (t : Table) : Prop where
  array : ∀ v ∈ t.array, v.isPlain = true
  slots : ∀ slot ∈ t.slots, slot.keyValue.isPlain = true ∧ slot.value.isPlain = true

theorem isPlain_empty : IsPlain {} := ⟨by simp, by simp⟩

namespace IsPlain

variable {t : Table} {k : Key} {keyValue v : Value} (plain : t.IsPlain)
include plain

theorem slotValue (k : Key) : (t.slotValue k).isPlain = true := by
  unfold Table.slotValue
  split
  · rename_i i _
    cases found : t.slots[i]? with
    | none => rfl
    | some slot => exact (plain.slots slot (Array.mem_of_getElem? found)).2
  · rfl

theorem get (key : Value) : (t.get key).isPlain = true := by
  unfold Table.get
  split
  · rename_i value found
    obtain ⟨i, -, found⟩ := Option.bind_eq_some_iff.1 found
    exact plain.array value (Array.mem_of_getElem? found)
  · split
    · exact plain.slotValue _
    · rfl

theorem modify_value (i : Nat) (hv : v.isPlain = true) :
    ∀ slot ∈ t.slots.modify i ({ · with value := v }), slot.keyValue.isPlain = true ∧ slot.value.isPlain = true := by
  intro slot mem
  obtain ⟨j, found⟩ := Array.mem_iff_getElem?.1 mem
  obtain ⟨old, there, rfl⟩ := getElem?_modify_value.1 found
  obtain ⟨key, value⟩ := plain.slots old (Array.mem_of_getElem? there)
  refine ⟨key, ?_⟩
  dsimp only
  split
  · exact hv
  · exact value

theorem putSlot (k : Key) (hk : keyValue.isPlain = true) (hv : v.isPlain = true) :
    (t.putSlot k keyValue v).IsPlain := by
  refine ⟨by rw [array_putSlot]; exact plain.array, ?_⟩
  cases entry : t.index[k]? with
  | some i =>
    rw [(putSlot_of_indexed entry keyValue).1]
    exact plain.modify_value i hv
  | none =>
    rw [(putSlot_of_new entry keyValue).1]
    intro slot mem
    rcases Array.mem_push.1 mem with mem | rfl
    · exact plain.slots slot mem
    · exact ⟨hk, hv⟩

theorem unlink (k : Key) : (t.unlink k).2.IsPlain := by
  cases entry : t.index[k]? with
  | some i =>
    refine ⟨by rw [array_unlink]; exact plain.array, ?_⟩
    rw [(unlink_of_indexed entry).1]
    exact plain.modify_value i rfl
  | none =>
    rw [unlink_of_new entry]
    exact plain

theorem push (hv : v.isPlain = true) : IsPlain { t with array := t.array.push v } := by
  refine ⟨fun w mem => ?_, plain.slots⟩
  rcases Array.mem_push.1 mem with mem | rfl
  · exact plain.array w mem
  · exact hv

theorem migrate : t.migrate.IsPlain := by
  fun_induction Table.migrate t with
  | case1 t taken stop => exact plain.unlink _
  | case2 t taken _ _ ih =>
    refine ih ((plain.unlink _).push ?_)
    show (t.unlink _).1.isPlain = true
    rw [unlink_value]
    exact plain.slotValue _

theorem compact : t.compact.IsPlain :=
  ⟨plain.array, fun slot mem => plain.slots slot (Array.mem_filter.1 mem).1⟩

theorem assignSlot (k : Key) (hk : keyValue.isPlain = true) (hv : v.isPlain = true) :
    (Table.assign.assignSlot k keyValue v t).IsPlain := by
  unfold Table.assign.assignSlot
  split
  · exact plain.putSlot k hk hv
  · split
    · exact plain
    · split
      · exact plain.compact.putSlot k hk hv
      · exact plain.putSlot k hk hv

theorem assign (k : Key) (hk : keyValue.isPlain = true) (hv : v.isPlain = true) :
    (t.assign k keyValue v).IsPlain := by
  unfold Table.assign
  split
  · rename_i i _
    split
    · refine ⟨fun w mem => ?_, plain.slots⟩
      rcases Array.mem_or_eq_of_mem_setIfInBounds mem with mem | rfl
      · exact plain.array w mem
      · exact hv
    · split
      · exact ((plain.unlink k).push hv).migrate
      · exact plain.assignSlot k hk hv
  · exact plain.assignSlot k hk hv

theorem arrayEntryFrom {i : Nat} {entry : Value × Value} (found : Table.arrayEntryFrom t.array i = some entry) :
    entry.1.isPlain = true ∧ entry.2.isPlain = true := by
  fun_induction Table.arrayEntryFrom t.array i with
  | case1 i inside cleared ih => exact ih found
  | case2 i inside filled =>
    cases found
    exact ⟨rfl, plain.array _ (Array.getElem_mem inside)⟩
  | case3 => cases found

theorem slotEntryFrom {i : Nat} {entry : Value × Value} (found : Table.slotEntryFrom t.slots i = some entry) :
    entry.1.isPlain = true ∧ entry.2.isPlain = true := by
  fun_induction Table.slotEntryFrom t.slots i with
  | case1 i inside cleared ih => exact ih found
  | case2 i inside filled =>
    cases found
    exact plain.slots _ (Array.getElem_mem inside)
  | case3 => cases found

theorem entryFrom {i j : Nat} {entry : Value × Value} (found : t.entryFrom i j = some entry) :
    entry.1.isPlain = true ∧ entry.2.isPlain = true := by
  unfold Table.entryFrom at found
  split at found
  · rename_i first
    cases found
    exact plain.arrayEntryFrom first
  · exact plain.slotEntryFrom found

end IsPlain

end Table

/-! ## Stores -/

namespace Store

/-- The cell exists and holds no multi-value. -/
def HasPlain (s : Store) (cell : Nat) : Prop := ∃ v, s.cells[cell]? = some v ∧ v.isPlain = true

/-- No multi-value gets into a cell that holds none. -/
def Keeps (s s' : Store) : Prop := ∀ cell, s.HasPlain cell → s'.HasPlain cell

/-- Multi-values are nowhere but in cells that no closure captured, and none is inside another one. -/
structure Plain (s : Store) : Prop where
  cells : ∀ v ∈ s.cells, v.IsFlat
  tables : ∀ t ∈ s.tables, t.IsPlain
  closures : ∀ c ∈ s.closures, ∀ cell ∈ c.upvalues, s.HasPlain cell

variable {s s' s'' : Store} {v : Value}

theorem HasPlain.cell {cell : Nat} (h : s.HasPlain cell) : (s.cell cell).isPlain = true := by
  obtain ⟨v, found, plain⟩ := h
  rw [Store.cell, found]
  exact plain

theorem Keeps.refl (s : Store) : s.Keeps s := fun _ => id

theorem Keeps.trans (h : s.Keeps s') (h' : s'.Keeps s'') : s.Keeps s'' := fun cell plain => h' cell (h cell plain)

theorem Keeps.of_cells (same : s'.cells = s.cells) : s.Keeps s' := fun cell plain => by
  unfold HasPlain
  rw [same]
  exact plain

namespace Plain

variable (plain : s.Plain)
include plain

theorem cell (cell : Nat) : (s.cell cell).IsFlat := by
  unfold Store.cell
  cases found : s.cells[cell]? with
  | none => trivial
  | some v => exact plain.cells v (Array.mem_of_getElem? found)

theorem table (id : Nat) : (s.table id).IsPlain := by
  unfold Store.table
  cases found : s.tables[id]? with
  | none => exact Table.isPlain_empty
  | some t => exact plain.tables t (Array.mem_of_getElem? found)

theorem chainValue {key : Value} {n id : Nat} (found : s.chainValue? key n id = some v) : v.isPlain = true := by
  induction n generalizing id with
  | zero => cases found
  | succ n ih =>
    rw [Store.chainValue?] at found
    split at found
    · split at found
      · exact ih found
      · cases found
        rfl
    · cases found
      exact (plain.table id).get key

/-- What a read through the prototype chain finds. -/
theorem lookup (id : Nat) (key : Value) (limit : Nat) :
    PlainOr (·.isPlain = true) (s.lookup id key limit) := by
  unfold Store.lookup
  cases found : s.chainValue? key (limit + 1) id with
  | some v => exact plain.chainValue found
  | none => trivial

/-- A store with the same cells and closures. -/
theorem withTables {tables : Array Table} (htables : ∀ t ∈ tables, t.IsPlain) :
    Plain { s with tables } ∧ s.Keeps { s with tables } :=
  ⟨⟨plain.cells, htables, plain.closures⟩, .of_cells rfl⟩

theorem modifyTable (id : Nat) {f : Table → Table} (kept : ∀ t, t.IsPlain → (f t).IsPlain) :
    Plain { s with tables := s.tables.modify id f } ∧ s.Keeps { s with tables := s.tables.modify id f } := by
  refine plain.withTables fun t mem => ?_
  obtain ⟨i, found⟩ := Array.mem_iff_getElem?.1 mem
  rw [Array.getElem?_modify] at found
  split at found
  · obtain ⟨old, there, rfl⟩ := Option.map_eq_some_iff.1 found
    exact kept old (plain.tables old (Array.mem_of_getElem? there))
  · exact plain.tables t (Array.mem_of_getElem? found)

theorem assign (id : Nat) (k : Key) {keyValue : Value} (hk : keyValue.isPlain = true) (hv : v.isPlain = true) :
    (s.assign id k keyValue v).Plain ∧ s.Keeps (s.assign id k keyValue v) :=
  plain.modifyTable id fun _ h => h.assign k hk hv

theorem setMetatable (id : Nat) (metatable : Option Nat) :
    (s.setMetatable id metatable).Plain ∧ s.Keeps (s.setMetatable id metatable) :=
  plain.modifyTable id fun _ h => ⟨h.array, h.slots⟩

theorem pushTable {t : Table} (ht : t.IsPlain) :
    Plain { s with tables := s.tables.push t } ∧ s.Keeps { s with tables := s.tables.push t } := by
  refine plain.withTables fun t' mem => ?_
  rcases Array.mem_push.1 mem with mem | rfl
  · exact plain.tables t' mem
  · exact ht

theorem setCell (cell : Nat) (hv : v.isPlain = true) : (s.setCell cell v).Plain ∧ s.Keeps (s.setCell cell v) := by
  have keeps : s.Keeps (s.setCell cell v) := by
    rintro other ⟨w, found, hw⟩
    have inside := (Array.getElem?_eq_some_iff.1 found).1
    by_cases same : cell = other
    · exact ⟨v, by simp [Store.setCell, same, inside], hv⟩
    · exact ⟨w, by simp [Store.setCell, same, found], hw⟩
  refine ⟨⟨fun w mem => ?_, plain.tables, fun c mem cell mem' => keeps _ (plain.closures c mem cell mem')⟩, keeps⟩
  rcases Array.mem_or_eq_of_mem_setIfInBounds mem with mem | rfl
  · exact plain.cells w mem
  · exact Value.isFlat_of_isPlain hv

theorem withCells {vs : List Value} (flat : ∀ v ∈ vs, v.IsFlat) :
    (s.withCells vs).Plain ∧ s.Keeps (s.withCells vs) := by
  have keeps : s.Keeps (s.withCells vs) := by
    rintro other ⟨w, found, hw⟩
    have inside := (Array.getElem?_eq_some_iff.1 found).1
    exact ⟨w, by rw [Store.withCells, Array.getElem?_append_left inside, found], hw⟩
  refine ⟨⟨fun w mem => ?_, plain.tables, fun c mem cell mem' => keeps _ (plain.closures c mem cell mem')⟩, keeps⟩
  rcases Array.mem_append.1 mem with mem | mem
  · exact plain.cells w mem
  · exact flat w (by simpa using mem)

theorem newClosure {c : Closure} (captured : ∀ cell ∈ c.upvalues, s.HasPlain cell) :
    (s.newClosure c).2.Plain ∧ s.Keeps (s.newClosure c).2 := by
  refine ⟨⟨plain.cells, plain.tables, fun c' mem => ?_⟩, .of_cells rfl⟩
  rcases Array.mem_push.1 mem with mem | rfl
  · exact plain.closures c' mem
  · exact captured

end Plain

/-- New cells with plain values. -/
theorem hasPlain_withCells {vs : List Value} (plain : Value.AllPlain vs) {i : Nat} (inside : i < vs.length) :
    (s.withCells vs).HasPlain (s.cells.size + i) :=
  ⟨vs[i], by simp [withCells, inside], plain _ (List.getElem_mem inside)⟩

end Store

/-! ## Functions of the host -/

namespace HostAction

variable {α β : Type} {P : α → Prop} {Q : β → Prop}

/-- On a plain store the action has a result as `P` says or a plain fault, and it adds no multi-value. -/
def Plain (x : HostAction α) (P : α → Prop) : Prop :=
  ∀ s : Store, s.Plain →
    PlainOr P (x.run.run s).1 ∧ (x.run.run s).2.Plain ∧ s.Keeps (x.run.run s).2

theorem plain_pure {a : α} (h : P a) : Plain (pure a : HostAction α) P := fun s plain => ⟨h, plain, .refl s⟩

theorem plain_throw {fault : Fault} (h : fault.IsPlain) : Plain (throw fault : HostAction α) P :=
  fun s plain => ⟨h, plain, .refl s⟩

theorem plain_get : Plain (get : HostAction Store) Store.Plain := fun s plain => ⟨plain, plain, .refl s⟩

theorem plain_modify {f : Store → Store} (h : ∀ s, s.Plain → (f s).Plain ∧ s.Keeps (f s)) :
    Plain (modify f : HostAction PUnit) fun _ => True := fun s plain => ⟨trivial, h s plain⟩

theorem plain_ofExcept {e : Except Fault α} (h : PlainOr P e) :
    Plain (MonadExcept.ofExcept e : HostAction α) P := by
  cases e with
  | ok a => exact plain_pure h
  | error fault => exact plain_throw h

theorem plain_bind {x : HostAction α} {f : α → HostAction β} (first : x.Plain P)
    (second : ∀ a, P a → (f a).Plain Q) : (x >>= f).Plain Q := by
  intro s plain
  have done := first s plain
  have rest : (x >>= f).run.run s = ExceptT.bindCont f (x.run.run s).1 (x.run.run s).2 := rfl
  rw [rest]
  generalize x.run.run s = r at done ⊢
  obtain ⟨_ | a, s'⟩ := r
  · exact done
  · obtain ⟨ha, plain', keeps⟩ := done
    obtain ⟨hb, plain'', keeps'⟩ := second a ha s' plain'
    exact ⟨hb, plain'', keeps.trans keeps'⟩

theorem plain_ofValue (v : Value) : PlainOr (fun _ => True) (Key.ofValue v) := by
  cases v with
  | number n =>
    rw [Key.ofValue]
    split <;> trivial
  | _ => trivial

theorem plain_write (id : Nat) {key value : Value} (hk : key.isPlain = true) (hv : value.isPlain = true) :
    (write id key value).Plain fun _ => True :=
  plain_bind (plain_ofExcept (plain_ofValue key)) fun k _ => plain_modify fun _ plain => plain.assign id k hk hv

end HostAction

/-- Given plain arguments the function has plain results or a plain fault, and it adds no multi-value to the
store. -/
def HostFunction.Plain (f : HostFunction) : Prop :=
  ∀ args, Value.AllPlain args → (f.run args).Plain Value.AllPlain


namespace Library

open HostAction

theorem plain_tableArgument (function : String) (args : List Value) (position : Nat) :
    (tableArgument function args position).Plain fun _ => True := by
  unfold tableArgument
  split
  · exact plain_pure trivial
  · exact plain_throw trivial

theorem plain_inBase (base : Float) (v : Value) : PlainOr (fun _ => True) (inBase base v) := by
  unfold inBase
  split
  · split <;> trivial
  · trivial

theorem plain_selectStart (count : Nat) (n : Int) : PlainOr (fun _ => True) (selectStart count n) := by
  unfold selectStart
  split
  · trivial
  · split <;> trivial

theorem plain_unpackRange {t : Table} (plain : t.IsPlain) (first last : Int) (limit : Nat) :
    PlainOr Value.AllPlain (unpackRange t first last limit) := by
  unfold unpackRange
  split
  · exact fun v mem => absurd mem List.not_mem_nil
  · split
    · trivial
    · intro v mem
      obtain ⟨i, -, rfl⟩ := List.mem_map.1 mem
      exact plain.get _

theorem plain_next {t : Table} (plain : t.IsPlain) (key : Value) :
    PlainOr (fun entry => ∀ e ∈ entry, e.1.isPlain = true ∧ e.2.isPlain = true) (t.next key) := by
  unfold Table.next
  split
  · exact fun e found => plain.entryFrom found
  · split
    · split
      · exact fun e found => plain.entryFrom found
      · refine .bind (plain_ofValue key) fun k _ => ?_
        split
        · exact fun e found => plain.entryFrom found
        · trivial
    · refine .bind (plain_ofValue key) fun k _ => ?_
      split
      · exact fun e found => plain.entryFrom found
      · trivial

theorem plain_single {v : Value} (h : v.isPlain = true) :
    HostAction.Plain (pure [v] : HostAction (List Value)) Value.AllPlain :=
  plain_pure (.cons h fun _ mem => absurd mem List.not_mem_nil)

theorem tonumber_plain : HostFunction.Plain ⟨"tonumber", tonumber⟩ := by
  intro args plain
  have given (n : Option Float) : HostAction.Plain (pure [(n.map Value.number).getD .nil]) Value.AllPlain := by
    cases n <;> exact plain_single rfl
  show HostAction.Plain (tonumber args) _
  unfold tonumber
  dsimp only
  split
  · exact given _
  · exact plain_bind (plain_ofExcept (plain_inBase _ _)) fun n _ => given n
  · exact plain_bind (P := fun _ => True) (plain_throw trivial) fun n _ => given n

theorem assert_plain : HostFunction.Plain ⟨"assert", assert⟩ := by
  intro args plain
  show HostAction.Plain (assert args) _
  unfold assert
  split
  · exact plain_pure plain
  · split
    · exact plain_throw rfl
    · exact plain_throw (plain.argument 2)

theorem select_plain : HostFunction.Plain ⟨"select", select⟩ := by
  intro args plain
  show HostAction.Plain (select args) _
  unfold select
  dsimp only
  split
  · exact plain_single rfl
  · split
    · exact plain_throw trivial
    · exact plain_bind (plain_ofExcept (plain_selectStart _ _)) fun start _ => plain_pure ((plain.drop 1).drop start)

theorem rawget_plain : HostFunction.Plain ⟨"rawget", rawget⟩ := fun _ _ =>
  plain_bind (plain_tableArgument _ _ _) fun id _ => plain_bind plain_get fun _ held =>
    plain_single ((held.table id).get _)

theorem rawset_plain : HostFunction.Plain ⟨"rawset", rawset⟩ := fun _ plain =>
  plain_bind (plain_tableArgument _ _ _) fun id _ =>
    plain_bind (plain_write id (plain.argument 2) (plain.argument 3)) fun _ _ => plain_single rfl

theorem setmetatable_plain : HostFunction.Plain ⟨"setmetatable", setmetatable⟩ := by
  intro args plain
  refine plain_bind (plain_tableArgument _ _ _) fun id _ => ?_
  have given (metatable : Option Nat) : HostAction.Plain (do
      modify (·.setMetatable id metatable)
      pure [Value.table id]) Value.AllPlain :=
    plain_bind (plain_modify fun _ held => held.setMetatable id metatable) fun _ _ => plain_single rfl
  dsimp only
  split
  · exact given _
  · exact given _
  · exact plain_bind (P := fun _ => True) (plain_throw trivial) fun metatable _ => given metatable

theorem getmetatable_plain : HostFunction.Plain ⟨"getmetatable", getmetatable⟩ := by
  intro args plain
  refine plain_bind plain_get fun s held => ?_
  split <;> exact plain_single rfl

theorem next_plain : HostFunction.Plain ⟨"next", next⟩ := by
  intro args plain
  refine plain_bind (plain_tableArgument _ _ _) fun id _ => plain_bind plain_get fun s held =>
    plain_bind (plain_ofExcept (plain_next (held.table id) _)) fun entry given => ?_
  cases entry with
  | none => exact plain_single rfl
  | some entry =>
    obtain ⟨key, value⟩ := given entry rfl
    exact plain_pure (.cons key (.cons value fun _ mem => absurd mem List.not_mem_nil))

theorem load_plain : HostFunction.Plain ⟨"load", load⟩ := by
  intro args plain
  show HostAction.Plain (load args) _
  unfold load
  split
  · split
    · exact plain_bind (P := fun _ => True) (fun s held => ⟨trivial, held.newClosure (by simp)⟩) fun id _ =>
        plain_single rfl
    · exact plain_pure (.cons rfl (.cons rfl fun _ mem => absurd mem List.not_mem_nil))
  · exact plain_throw trivial

theorem unpack_plain (limit : Nat) : HostFunction.Plain ⟨"unpack", unpack limit⟩ := fun _ _ =>
  plain_bind (plain_tableArgument _ _ _) fun id _ => plain_bind plain_get fun _ held =>
    plain_ofExcept (plain_unpackRange (held.table id) _ _ _)

/-- The functions of the host that need no other one. -/
theorem plainFunctions_plain (config : Config) : ∀ f ∈ plainFunctions config, f.Plain := by
  intro f mem
  simp only [plainFunctions, List.mem_cons, List.not_mem_nil, or_false] at mem
  rcases mem with rfl | rfl | rfl | rfl | rfl | rfl | rfl | rfl | rfl | rfl | rfl | rfl | rfl | rfl | rfl
  · exact fun args _ => plain_bind (plain_modify fun s held => ⟨⟨held.cells, held.tables, held.closures⟩,
      .of_cells rfl⟩) fun _ _ => plain_pure fun _ mem => absurd mem List.not_mem_nil
  · intro args _
    cases args with
    | nil => exact plain_throw trivial
    | cons v rest => exact plain_single rfl
  · exact fun _ _ => plain_single rfl
  · exact tonumber_plain
  · exact assert_plain
  · exact fun _ plain => plain_throw (plain.argument 1)
  · exact select_plain
  · exact rawget_plain
  · exact rawset_plain
  · exact fun _ _ => plain_single rfl
  · exact setmetatable_plain
  · exact getmetatable_plain
  · exact next_plain
  · exact load_plain
  · exact unpack_plain _

theorem ipairsIterator_plain (chainDepth : Nat) :
    HostFunction.Plain ⟨"ipairs_iterator", ipairsIterator chainDepth⟩ := by
  intro args plain
  refine plain_bind (plain_tableArgument _ _ _) fun id _ => plain_bind plain_get fun s held =>
    plain_bind (plain_ofExcept (held.lookup id _ chainDepth)) fun v hv => plain_pure ?_
  split
  · exact .cons rfl fun _ mem => absurd mem List.not_mem_nil
  · exact .cons rfl (.cons hv fun _ mem => absurd mem List.not_mem_nil)

theorem ipairs_plain {iterator : Value} (h : iterator.isPlain = true) :
    HostFunction.Plain ⟨"ipairs", ipairs iterator⟩ := fun _ _ =>
  plain_bind (plain_tableArgument _ _ _) fun _ _ =>
    plain_pure (.cons h (.cons rfl (.cons rfl fun _ mem => absurd mem List.not_mem_nil)))

theorem pairs_plain {next : Value} (h : next.isPlain = true) :
    HostFunction.Plain ⟨"pairs", pairs next⟩ := fun _ _ =>
  plain_bind (plain_tableArgument _ _ _) fun _ _ =>
    plain_pure (.cons h (.cons rfl (.cons rfl fun _ mem => absurd mem List.not_mem_nil)))

theorem stringLength_plain : HostFunction.Plain ⟨"string.len", stringLength⟩ := by
  intro args _
  show HostAction.Plain (stringLength args) _
  unfold stringLength
  split
  · exact plain_single rfl
  · exact plain_throw trivial

end Library

end ScriptEngine
