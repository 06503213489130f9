import ScriptEngine.Proofs.Table.Rows

/-!
# Traversals

A traversal asks `next` for one entry after the other, and between two questions entries may be cleared or
overwritten (`Traverses`). Such writes leave every row in its place and revive none (`Thins`), so the row of
the last key marks how far the traversal is (`Progress`). Hence it never fails, returns no key twice, and
when it ends each entry of the table it began with was either returned with the value it had at its turn, or
was cleared by then (`traverses_entries`).
-/

set_option linter.dupNamespace false

namespace ScriptEngine.Table

variable {t t' t'' now last : Table} {k : Key} {key v : Value} {w : Write} {p q : Nat}

/-! ## Clearing and overwriting -/

/-- A write that clears an entry or overwrites one. -/
def Write.Lessens (w : Write) (t : Table) : Prop := w.content = .nil ∨ t.get w.key ≠ .nil

/-- Every row of `t` is in its place in `t'`, and what is cleared stays so. -/
structure Thins (t t' : Table) : Prop where
  size : t'.array.size = t.array.size
  index : t'.index = t.index
  keys : t'.rows.map Prod.fst = t.rows.map Prod.fst
  cleared : ∀ {p : Nat} {key : Value}, t.rows[p]? = some (key, .nil) → t'.rows[p]? = some (key, .nil)

namespace Thins

theorem refl (t : Table) : Thins t t := ⟨rfl, rfl, rfl, id⟩

theorem trans (first : Thins t t') (second : Thins t' t'') : Thins t t'' where
  size := second.size.trans first.size
  index := second.index.trans first.index
  keys := second.keys.trans first.keys
  cleared row := second.cleared (first.cleared row)

theorem place? (thins : Thins t t') (key : Value) : t'.place? key = t.place? key := by
  rw [Table.place?, Table.place?, thins.size, thins.index]

theorem row (thins : Thins t t') (row : t'.rows[p]? = some (key, v)) :
    ∃ before, t.rows[p]? = some (key, before) := by
  have same : (t'.rows.map Prod.fst)[p]? = some key := by rw [List.getElem?_map, row, Option.map_some]
  rw [thins.keys, List.getElem?_map, Option.map_eq_some_iff] at same
  obtain ⟨⟨key', before⟩, place, rfl⟩ := same
  exact ⟨before, place⟩

/-- What is not cleared was not cleared before. -/
theorem held (thins : Thins t t') (row : t'.rows[p]? = some (key, v)) (some' : v ≠ .nil) :
    ∃ before, t.rows[p]? = some (key, before) ∧ before ≠ .nil := by
  obtain ⟨before, place⟩ := thins.row row
  refine ⟨before, place, ?_⟩
  rintro rfl
  rw [thins.cleared place] at row
  cases row
  exact some' rfl

end Thins

/-- Replacing the value of one row that was not cleared, or clearing it. -/
theorem thins_of_rows (size : t'.array.size = t.array.size) (index : t'.index = t.index)
    (rows : ∀ q : Nat, t'.rows[q]? = (t.rows[q]?).map fun row => (row.1, if p = q then v else row.2))
    (lessens : v = .nil ∨ ∀ key, t.rows[p]? ≠ some (key, .nil)) : Thins t t' where
  size := size
  index := index
  keys := by
    apply List.ext_getElem?
    intro q
    rw [List.getElem?_map, List.getElem?_map, rows, Option.map_map]
    rfl
  cleared := by
    intro q key row
    rw [rows, row, Option.map_some]
    split
    · rename_i here
      subst here
      rcases lessens with rfl | held
      · rfl
      · exact absurd row (held key)
    · rfl

theorem rows_setIfInBounds (t : Table) (i : Nat) (inside : i < t.array.size) (v : Value) (q : Nat) :
    (rows { t with array := t.array.setIfInBounds i v })[q]? =
      (t.rows[q]?).map fun row => (row.1, if i = q then v else row.2) := by
  have size : (t.array.setIfInBounds i v).size = t.array.size := Array.size_setIfInBounds
  by_cases within : q < t.array.size
  · rw [rows_array (t := { t with array := t.array.setIfInBounds i v }) (size.symm ▸ within), rows_array within,
      Option.map_some]
    congr 2
    exact Array.getElem_setIfInBounds (size.symm ▸ within)
  · obtain ⟨j, rfl⟩ := Nat.exists_eq_add_of_le (Nat.le_of_not_lt within)
    have elsewhere : i ≠ t.array.size + j := by omega
    have slot := rows_slot { t with array := t.array.setIfInBounds i v } j
    rw [show (t.array.setIfInBounds i v).size = t.array.size from size] at slot
    rw [slot, rows_slot, Option.map_map]
    simp [elsewhere, Function.comp_def]

theorem rows_putSlot {i : Nat} (entry : t.index[k]? = some i) (keyValue v : Value) (q : Nat) :
    (t.putSlot k keyValue v).rows[q]? =
      (t.rows[q]?).map fun row => (row.1, if t.array.size + i = q then v else row.2) := by
  have size : (t.putSlot k keyValue v).array.size = t.array.size := by rw [array_putSlot]
  by_cases within : q < t.array.size
  · have elsewhere : t.array.size + i ≠ q := by omega
    rw [rows_array (size.symm ▸ within), rows_array within]
    simp [elsewhere]
  · obtain ⟨j, rfl⟩ := Nat.exists_eq_add_of_le (Nat.le_of_not_lt within)
    have slot := rows_slot (t.putSlot k keyValue v) j
    rw [size, (putSlot_of_indexed entry keyValue).1, Array.getElem?_modify] at slot
    rw [slot, rows_slot]
    by_cases here : i = j
    · subst here
      cases t.slots[i]? <;> simp
    · simp [here, Function.comp_def]

/-- A row that is not cleared holds what is read under its key. -/
theorem get_ne_nil_of_place (place : t.place? key = some p) (held : t.get key ≠ .nil) (key' : Value) :
    t.rows[p]? ≠ some (key', .nil) := by
  intro row
  rw [get_of_place place, row] at held
  exact held rfl

theorem thins_assign (regular : t.Regular) (found : Key.ofValue key = .ok k)
    (lessens : v = .nil ∨ t.get key ≠ .nil) : Thins t (t.assign k key v) := by
  have slot (outside : ∀ i, arrayIndex? key = some i → t.array.size ≤ i) :
      Thins t (assign.assignSlot k key v t) := by
    unfold assign.assignSlot
    split
    · rename_i mem
      rw [Std.HashMap.contains_eq_isSome_getElem?, Option.isSome_iff_exists] at mem
      obtain ⟨i, entry⟩ := mem
      obtain ⟨-, index⟩ := putSlot_of_indexed (v := v) entry key
      refine thins_of_rows (by rw [array_putSlot]) index (rows_putSlot entry key v)
        (lessens.imp_right fun held => ?_)
      exact get_ne_nil_of_place (by rw [place?_slot found outside, entry]; rfl) held
    · rename_i absent
      have none : t.index[k]? = none := Std.HashMap.getElem?_eq_none (by simpa using absent)
      have cleared : v = .nil :=
        lessens.resolve_right fun held => held (get_of_no_place (by rw [place?_slot found outside, none]; rfl))
      rw [if_pos (Value.isNil_iff.2 cleared)]
      exact .refl t
  unfold assign
  cases position : arrayIndex? key with
  | none => exact slot (by simp [position])
  | some i =>
    dsimp only
    split
    · rename_i inside
      refine thins_of_rows Array.size_setIfInBounds rfl (rows_setIfInBounds t i inside v)
        (lessens.imp_right fun held => ?_)
      exact get_ne_nil_of_place (place?_array position inside) held
    · rename_i outside
      rw [if_neg]
      · exact slot (by simpa [position] using outside)
      · -- what would continue the array part is not there to be overwritten
        rintro ⟨rfl, some'⟩
        have absent : k ∉ t.index := fun mem => absurd (regular.apart found mem position) (by omega)
        have none : t.place? key = none := by
          rw [place?_slot found (by simp [position]), Std.HashMap.getElem?_eq_none absent]
          rfl
        rcases lessens with rfl | held
        · cases some'
        · exact held (get_of_no_place none)

theorem thins_apply (regular : t.Regular) (lessens : w.Lessens t) : Thins t (w.apply t) := by
  cases accepted : w.key.isKey with
  | false =>
    rw [Write.apply_of_not_key accepted]
    exact Thins.refl t
  | true =>
    obtain ⟨k, found⟩ := Key.ofValue_of_isKey accepted
    rw [Write.apply_of_key found]
    exact thins_assign regular found lessens

/-! ## Asking for one entry after the other -/

/-- An entry that `next` returned, with the table it was asked of. -/
structure Visit where
  table : Table
  key : Value
  value : Value

/-- A traversal that began with `t` has made `visits` and is at `key`, and `now` is the table it has come
to: between two questions entries are cleared or overwritten. -/
inductive Traverses (t : Table) : List Visit → Table → Value → Prop
  | start : Traverses t [] t .nil
  | write {visits now key} {w : Write} (before : Traverses t visits now key) (lessens : w.Lessens now) :
      Traverses t visits (w.apply now) key
  | visit {visits now key key' value} (before : Traverses t visits now key)
      (next : now.next key = .ok (some (key', value))) :
      Traverses t (visits ++ [⟨now, key', value⟩]) now key'

/-- The table at the first of some visits, or `last` after all of them. -/
def tableAt (last : Table) (visits : List Visit) : Table := (visits.head?.map Visit.table).getD last

/-- Entries, each in its turn: visited with the value it has then, or passed over because it is cleared. -/
inductive Passed (last : Table) : List (Value × Value) → List Visit → Prop
  | done : Passed last [] []
  | visited {row entries visits} {visit : Visit} (key : visit.key = row.1)
      (value : visit.table.get row.1 = visit.value) (held : visit.value ≠ .nil)
      (more : Passed last entries visits) : Passed last (row :: entries) (visit :: visits)
  | skipped {row entries visits} (cleared : (tableAt last visits).get row.1 = .nil)
      (more : Passed last entries visits) : Passed last (row :: entries) visits

namespace Passed

variable {rows seen cleared : List (Value × Value)} {visits : List Visit} {row : Value × Value}

theorem length_le (passed : Passed last seen visits) : visits.length ≤ seen.length := by
  induction passed with
  | done => exact Nat.le_refl _
  | visited _ _ _ _ ih => exact Nat.succ_le_succ ih
  | skipped _ _ ih => exact Nat.le_succ_of_le ih

/-- The traversal passes over entries that are cleared. -/
theorem skip (passed : Passed now seen visits) (cleared : ∀ row ∈ rows, now.get row.1 = .nil) :
    Passed now (seen ++ rows) visits := by
  induction passed with
  | done =>
    induction rows with
    | nil => exact done
    | cons row rows ih =>
      exact skipped (cleared row (.head _)) (ih fun row mem => cleared row (.tail _ mem))
  | visited key value held _ ih => exact visited key value held ih
  | skipped none _ ih => exact skipped none ih

/-- The traversal visits the entry that it has come to. -/
theorem visit (passed : Passed now seen visits) (held : v ≠ .nil) (value : now.get row.1 = v) (last : Table) :
    Passed last (seen ++ [row]) (visits ++ [⟨now, row.1, v⟩]) := by
  induction passed with
  | done => exact visited rfl value held done
  | visited key value' held' _ ih => exact visited key value' held' ih
  | @skipped row' entries visits none more ih =>
    refine skipped ?_ ih
    cases visits <;> exact none

end Passed

/-! ## How far a traversal is -/

theorem rowFrom_eq_some {start : Nat} {row : Value × Value} (found : t.rowFrom start = some row) :
    ∃ q, start ≤ q ∧ t.rows[q]? = some row ∧ row.2 ≠ .nil ∧
      ∀ p row', start ≤ p → p < q → t.rows[p]? = some row' → filled row' = false := by
  obtain ⟨held, n, inside, here, before⟩ := List.find?_eq_some_iff_getElem.1 found
  refine ⟨start + n, Nat.le_add_right _ _, ?_, filled_iff.1 held, fun p row' from' less place => ?_⟩
  · rw [← List.getElem?_drop, List.getElem?_eq_getElem inside, here]
  · obtain ⟨m, rfl⟩ := Nat.exists_eq_add_of_le from'
    have earlier := before m (by omega)
    rw [← List.getElem?_drop, List.getElem?_eq_getElem (by omega)] at place
    rw [Option.some.inj place, Bool.not_eq_true'] at earlier
    exact earlier

theorem rowFrom_eq_none {start : Nat} (none : t.rowFrom start = none) (p : Nat) (row : Value × Value)
    (from' : start ≤ p) (place : t.rows[p]? = some row) : filled row = false := by
  obtain ⟨m, rfl⟩ := Nat.exists_eq_add_of_le from'
  rw [← List.getElem?_drop] at place
  exact Bool.eq_false_of_not_eq_true (List.find?_eq_none.1 none row (List.mem_of_getElem? place))

/-- The rows before `start` are behind the traversal. -/
structure Progress (t : Table) (visits : List Visit) (now : Table) (key : Value) (start : Nat) : Prop where
  regular : Regular now
  filed : Filed now
  thins : Thins t now
  /-- `next` goes on at row `start`. -/
  resumes : key = .nil ∧ start = 0 ∨ ∃ p, start = p + 1 ∧ t.place? key = some p
  behind : ∀ visit ∈ visits, ∃ p < start, t.place? visit.key = some p
  apart : visits.Pairwise fun a b => (a.key == b.key) = false
  values : ∀ visit ∈ visits, visit.value ≠ .nil ∧ visit.table.get visit.key = visit.value
  passed : ∀ last, Passed last ((t.rows.take start).filter filled) visits

variable {visits : List Visit} {start : Nat}

theorem progress_start (regular : t.Regular) (filed : t.Filed) : Progress t [] t .nil 0 where
  regular := regular
  filed := filed
  thins := .refl t
  resumes := .inl ⟨rfl, rfl⟩
  behind _ mem := absurd mem List.not_mem_nil
  apart := .nil
  values _ mem := absurd mem List.not_mem_nil
  passed _ := .done

namespace Progress

theorem write (progress : Progress t visits now key start) (lessens : w.Lessens now) :
    Progress t visits (w.apply now) key start :=
  { progress with
    regular := (progress.regular.apply w).1
    filed := progress.filed.apply progress.regular.toLinked w
    thins := progress.thins.trans (thins_apply progress.regular lessens) }

theorem next (progress : Progress t visits now key start) : now.next key = .ok (now.rowFrom start) := by
  rcases progress.resumes with ⟨rfl, rfl⟩ | ⟨p, rfl, place⟩
  · exact next_nil now
  · exact next_of_place (progress.thins.place? key ▸ place)

/-- An entry whose row is cleared by now is no longer read. -/
theorem get_of_cleared (progress : Progress t visits now key start) (filed : t.Filed) (regular : t.Regular)
    {row : Value × Value} (before : t.rows[p]? = some row) (held : filled row = true)
    (cleared : ∀ row, now.rows[p]? = some row → filled row = false) : now.get row.1 = .nil := by
  have place := regular.place_of_row filed (show t.rows[p]? = some (row.1, row.2) from before) (filled_iff.1 held)
  rw [get_of_place ((progress.thins.place? row.1).trans place)]
  cases row' : now.rows[p]? with
  | none => rfl
  | some now' =>
    have none := cleared now' row'
    rw [filled, Bool.not_eq_false', Value.isNil_iff] at none
    exact none

theorem visit (progress : Progress t visits now key start) (regular : t.Regular) (filed : t.Filed)
    {key' value : Value} (next : now.next key = .ok (some (key', value))) :
    ∃ start', Progress t (visits ++ [⟨now, key', value⟩]) now key' start' := by
  rw [progress.next, Except.ok.injEq] at next
  obtain ⟨q, from', row, held, between⟩ := rowFrom_eq_some next
  obtain ⟨before, row', held'⟩ := progress.thins.held row held
  have place := regular.place_of_row filed row' held'
  have here := progress.regular.place_of_row progress.filed row held
  have reads : now.get key' = value := by
    rw [get_of_place here, row]
    rfl
  refine ⟨q + 1, { progress with
    resumes := .inr ⟨q, rfl, place⟩, behind := ?_, apart := ?_, values := ?_, passed := fun last => ?_ }⟩
  · intro visit mem
    rcases List.mem_append.1 mem with mem | mem
    · obtain ⟨p, less, place⟩ := progress.behind visit mem
      exact ⟨p, by omega, place⟩
    · cases List.mem_singleton.1 mem
      exact ⟨q, Nat.lt_succ_self q, place⟩
  · refine List.pairwise_append.2 ⟨progress.apart, List.pairwise_singleton _ _, fun visit mem visit' mem' => ?_⟩
    cases List.mem_singleton.1 mem'
    obtain ⟨p, less, place'⟩ := progress.behind visit mem
    refine place?_of_beq place' ?_
    rw [place]
    intro same
    cases same
    omega
  · intro visit mem
    rcases List.mem_append.1 mem with mem | mem
    · exact progress.values visit mem
    · cases List.mem_singleton.1 mem
      exact ⟨held, reads⟩
  · obtain ⟨n, rfl⟩ := Nat.exists_eq_add_of_le from'
    have rows : (t.rows.take (start + n + 1)).filter filled =
        (t.rows.take start).filter filled ++ ((t.rows.drop start).take n).filter filled ++ [(key', before)] := by
      rw [List.take_add_one, row', List.take_add, List.filter_append, List.filter_append]
      congr 1
      exact List.filter_cons_of_pos (filled_iff.2 held')
    rw [rows]
    refine Passed.visit ((progress.passed now).skip fun row mem => ?_) held reads last
    obtain ⟨mem, held⟩ := List.mem_filter.1 mem
    obtain ⟨m, place⟩ := List.mem_iff_getElem?.1 mem
    rw [List.getElem?_take] at place
    split at place
    · rename_i less
      rw [List.getElem?_drop] at place
      exact progress.get_of_cleared filed regular place held fun row => between _ row (by omega) (by omega)
    · cases place

/-- Once `next` has no more entries, every entry had its turn. -/
theorem finish (progress : Progress t visits now key start) (regular : t.Regular) (filed : t.Filed)
    (next : now.next key = .ok none) : Passed now t.entries visits := by
  rw [progress.next, Except.ok.injEq] at next
  have rows : t.entries = (t.rows.take start).filter filled ++ (t.rows.drop start).filter filled := by
    rw [entries_eq, ← List.filter_append, List.take_append_drop]
  rw [rows]
  refine (progress.passed now).skip fun row mem => ?_
  obtain ⟨mem, held⟩ := List.mem_filter.1 mem
  obtain ⟨m, place⟩ := List.mem_iff_getElem?.1 mem
  rw [List.getElem?_drop] at place
  exact progress.get_of_cleared filed regular place held fun row => rowFrom_eq_none next _ row (by omega)

theorem length_le (progress : Progress t visits now key start) : visits.length ≤ t.entries.length := by
  refine (progress.passed now).length_le.trans ?_
  rw [entries_eq]
  exact ((List.take_sublist start t.rows).filter filled).length_le

end Progress

theorem Traverses.progress (regular : t.Regular) (filed : t.Filed) (traverses : Traverses t visits now key) :
    ∃ start, Progress t visits now key start := by
  induction traverses with
  | start => exact ⟨0, progress_start regular filed⟩
  | write _ lessens ih =>
    obtain ⟨start, progress⟩ := ih
    exact ⟨start, progress.write lessens⟩
  | visit _ next ih =>
    obtain ⟨start, progress⟩ := ih
    exact progress.visit regular filed next

/-! ## Without writes in between -/

/-- Searching behind a kept element finds the next one that is kept. -/
theorem find?_behind {α : Type} {keep : α → Bool} {l : List α} {i : Nat} {a : α}
    (kept : (l.filter keep)[i]? = some a) :
    ∃ q, l[q]? = some a ∧ (l.drop (q + 1)).find? keep = (l.filter keep)[i + 1]? := by
  induction l generalizing i with
  | nil => cases kept
  | cons b l ih =>
    cases keeps : keep b with
    | true =>
      rw [List.filter_cons_of_pos keeps] at kept ⊢
      cases i with
      | zero =>
        refine ⟨0, kept, ?_⟩
        rw [List.drop_succ_cons, List.drop_zero, ← List.head?_filter, List.getElem?_cons_succ,
          List.head?_eq_getElem?]
      | succ i => exact (ih kept).imp' (· + 1) fun _ => id
    | false =>
      rw [List.filter_cons_of_neg (by simp [keeps])] at kept ⊢
      exact (ih kept).imp' (· + 1) fun _ => id

theorem next_nil_eq (t : Table) : t.next .nil = .ok t.entries[0]? := by
  rw [next_nil, entries_eq, rowFrom, List.drop_zero, ← List.head?_filter, List.head?_eq_getElem?]

theorem Regular.next_entry (regular : t.Regular) (filed : t.Filed) {i : Nat} {row : Value × Value}
    (entry : t.entries[i]? = some row) : t.next row.1 = .ok t.entries[i + 1]? := by
  have held := (mem_entries.1 (List.mem_of_getElem? entry)).choose_spec.2
  rw [entries_eq] at entry ⊢
  obtain ⟨q, here, more⟩ := find?_behind entry
  rw [next_of_place (regular.place_of_row filed here held), rowFrom, more]

/-! ## Any traversal -/

/-- A traversal of any table that writes made, with entries cleared and overwritten on the way: `next` never
fails, no key comes twice, every value is the one its key has then and none is `nil`, there are no more
visits than entries, and at the end each entry of the table it began with had its turn. Without
writes on the way, `next` returns the entries one after the other; they are what is read, and the table is
empty if there are none. -/
theorem traverses_entries (writes : List Write) :
    (∀ {visits now key}, Traverses (written writes) visits now key →
      (∃ answer, now.next key = .ok answer) ∧
      visits.Pairwise (fun a b => (a.key == b.key) = false) ∧
      (∀ visit ∈ visits, visit.value ≠ .nil ∧ visit.table.get visit.key = visit.value) ∧
      visits.length ≤ (written writes).entries.length ∧
      (now.next key = .ok none → Passed now (written writes).entries visits)) ∧
    (written writes).next .nil = .ok (written writes).entries[0]? ∧
    (∀ i row, (written writes).entries[i]? = some row →
      (written writes).next row.1 = .ok (written writes).entries[i + 1]?) ∧
    (∀ key v, v ≠ .nil →
      ((written writes).get key = v ↔ ∃ key', (key', v) ∈ (written writes).entries ∧ (key' == key) = true)) ∧
    ((written writes).isEmpty = true ↔ (written writes).entries = []) := by
  have regular := (regular_written writes).1
  have filed := filed_written writes
  refine ⟨fun traverses => ?_, next_nil_eq _, fun i row => regular.next_entry filed, fun key v some' =>
    regular.get_eq_iff_entry filed key some', filed.isEmpty_iff⟩
  obtain ⟨start, progress⟩ := traverses.progress regular filed
  exact ⟨⟨_, progress.next⟩, progress.apart, progress.values, progress.length_le, progress.finish regular filed⟩

/-- One string entry. -/
def oneWrite : List Write := [.string "k" (.boolean true)]

theorem rows_oneWrite : (written oneWrite).rows = [(.string "k", .boolean true)] := by
  have slots : (written oneWrite).slots = #[⟨.string "k", .string "k", .boolean true⟩] := by
    show (assign {} (.string "k") (.string "k") (.boolean true)).slots = _
    simp [assign, assign.assignSlot, arrayIndex?, Value.isNil, putSlot]
  have array : (written oneWrite).array = #[] := by
    show (assign {} (.string "k") (.string "k") (.boolean true)).array = _
    simp [assign, assign.assignSlot, arrayIndex?, Value.isNil, putSlot]
  rw [rows, slots, array]
  rfl

/-- The only entry is visited and then cleared, after which the traversal is at its end. -/
theorem traverses_entries_oneWrite :
    let visits : List Visit := [⟨written oneWrite, .string "k", .boolean true⟩]
    let now := Write.apply (written oneWrite) (.string "k" .nil)
    Traverses (written oneWrite) visits now (.string "k") ∧ now.next (.string "k") = .ok none ∧
      Passed now [(.string "k", .boolean true)] visits := by
  intro visits now
  have entries : (written oneWrite).entries = [(.string "k", .boolean true)] := by
    rw [entries_eq, rows_oneWrite]
    rfl
  have visited : Traverses (written oneWrite) visits (written oneWrite) (.string "k") :=
    .visit .start (by rw [next_nil_eq, entries]; rfl)
  have cleared : Traverses (written oneWrite) visits now (.string "k") := .write visited (.inl rfl)
  obtain ⟨⟨answer, next⟩, -, -, -, ends⟩ := (traverses_entries oneWrite).1 cleared
  have last : answer = none := by
    cases answer with
    | none => rfl
    | some entry =>
      -- a second visit would be one more than there are entries
      have more := ((traverses_entries oneWrite).1 (cleared.visit next)).2.2.2.1
      rw [entries] at more
      exact absurd more (Nat.lt_irrefl 1)
  subst last
  exact ⟨cleared, next, entries ▸ ends next⟩

end ScriptEngine.Table
