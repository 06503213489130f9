import ScriptEngine.Proofs.Evaluation.Picture

/-!
# Reading through prototypes

The metatables of a store make up a graph in which every table has at most one successor, so the chain of a
table is a sequence: `ancestor? i` is the table after `i` links, if there is one. A chain may come back to a
table that it has passed, and then it never ends.

What a read gives is said of this sequence (`lookup_first_hit`): the first value there is within the limit, `nil`
if the chain ends before it, and a fault otherwise. So a write concerns only those reads that come to the
written table (`chainValue?_congr`).
-/

set_option linter.dupNamespace false

namespace ScriptEngine

namespace Store

variable {s s' : Store} {key : Value} {id target : Nat}

/-- The table that `i` metatable links lead to. -/
def ancestor? (s : Store) : Nat → Nat → Option Nat
  | 0, id => some id
  | i + 1, id => (s.table id).metatable.bind (s.ancestor? i)

/-- There is no value for the key after `i` links. -/
def Lacks (s : Store) (key : Value) (id i : Nat) : Prop :=
  ∀ t, s.ancestor? i id = some t → ((s.table t).get key).isNil = true

/-- After `i` links, and not before, the key has the value. -/
structure Hits (s : Store) (key : Value) (id i : Nat) (v : Value) : Prop where
  found : ∃ t, s.ancestor? i id = some t ∧ (s.table t).get key = v
  some' : v.isNil = false
  first : ∀ j < i, s.Lacks key id j

/-- The table after `i` links has no metatable. -/
def Ends (s : Store) (id i : Nat) : Prop := ∃ t, s.ancestor? i id = some t ∧ (s.table t).metatable = none

/-- The target is the table after `i` links, and there is no value for the key before it. -/
def Reaches (s : Store) (key : Value) (id i target : Nat) : Prop :=
  s.ancestor? i id = some target ∧ ∀ j < i, s.Lacks key id j

/-! ## Chains -/

theorem ancestor?_add (s : Store) (i j id : Nat) :
    s.ancestor? (i + j) id = (s.ancestor? i id).bind (s.ancestor? j) := by
  induction i generalizing id with
  | zero => simp [ancestor?]
  | succ i ih =>
    rw [Nat.succ_add, ancestor?, ancestor?, Option.bind_assoc]
    exact Option.bind_congr fun t _ => ih t

theorem lacks_zero : s.Lacks key id 0 ↔ ((s.table id).get key).isNil = true := by
  simp [Lacks, ancestor?]

theorem lacks_succ {parent : Nat} (link : (s.table id).metatable = some parent) (i : Nat) :
    s.Lacks key id (i + 1) ↔ s.Lacks key parent i := by
  simp [Lacks, ancestor?, link]

/-- A chain that has ended has ended at some table. -/
theorem exists_ends {n : Nat} (past : s.ancestor? n id = none) : ∃ i < n, s.Ends id i := by
  induction n generalizing id with
  | zero => cases past
  | succ n ih =>
    cases link : (s.table id).metatable with
    | none => exact ⟨0, Nat.succ_pos n, id, rfl, link⟩
    | some parent =>
      rw [ancestor?, link] at past
      obtain ⟨i, less, t, there, last⟩ := ih past
      exact ⟨i + 1, Nat.succ_lt_succ less, t, by rw [ancestor?, link]; exact there, last⟩

/-- A chain that has ended does not go on. -/
theorem Ends.none {i n : Nat} (ends : s.Ends id i) (less : i < n) : s.ancestor? n id = none := by
  obtain ⟨t, there, last⟩ := ends
  obtain ⟨k, rfl⟩ : ∃ k, n = i + (k + 1) := ⟨n - i - 1, by omega⟩
  rw [ancestor?_add, there, Option.bind_some, ancestor?, last, Option.bind_none]

/-- A chain that comes back to a table repeats itself. -/
theorem ancestor?_repeats {i p : Nat} {t : Nat} (there : s.ancestor? i id = some t)
    (back : s.ancestor? (i + p) id = some t) (k n : Nat) :
    s.ancestor? (i + (p * k + n)) id = s.ancestor? (i + n) id := by
  induction k with
  | zero => simp
  | succ k ih =>
    rw [← ih, show i + (p * (k + 1) + n) = i + p + (p * k + n) by ring, ancestor?_add, back, ancestor?_add s i, there]

/-- On a cycle every table after any number of links is one that comes before the return. -/
theorem ancestor?_of_cycle {i p : Nat} {t : Nat} (there : s.ancestor? i id = some t)
    (back : s.ancestor? (i + p) id = some t) (positive : 0 < p) (n : Nat) :
    ∃ j < i + p, s.ancestor? n id = s.ancestor? j id ∧ (s.ancestor? n id).isSome := by
  by_cases before : n < i
  · refine ⟨n, by omega, rfl, ?_⟩
    by_contra past
    rw [Option.not_isSome_iff_eq_none] at past
    obtain ⟨k, less, ends⟩ := exists_ends past
    rw [ends.none (by omega : k < i)] at there
    cases there
  · have place : i + (p * ((n - i) / p) + (n - i) % p) = n := by
      rw [Nat.div_add_mod]
      omega
    have small := Nat.mod_lt (n - i) positive
    have same := ancestor?_repeats there back ((n - i) / p) ((n - i) % p)
    rw [place] at same
    refine ⟨i + (n - i) % p, by omega, same, ?_⟩
    by_contra past
    rw [Option.not_isSome_iff_eq_none] at past
    obtain ⟨k, less, ends⟩ := exists_ends past
    have far := ancestor?_repeats there back (n + 1) 0
    simp only [Nat.add_zero, there] at far
    rw [ends.none] at far
    · cases far
    · have := Nat.le_mul_of_pos_left (n + 1) positive
      omega

/-! ## Reads -/

theorem chainValue?_of_hits {i n : Nat} {v : Value} (hits : s.Hits key id i v) (within : i < n) :
    s.chainValue? key n id = some v := by
  induction n generalizing id i with
  | zero => omega
  | succ n ih =>
    obtain ⟨⟨t, there, value⟩, some', first⟩ := hits
    rw [chainValue?]
    cases i with
    | zero =>
      cases there
      simp [value, some']
    | succ i =>
      have empty := lacks_zero.1 (first 0 (Nat.succ_pos i))
      cases link : (s.table id).metatable with
      | none =>
        rw [ancestor?, link] at there
        cases there
      | some parent =>
        rw [ancestor?, link] at there
        simp only [empty, if_true]
        refine ih ⟨⟨t, there, value⟩, some', fun j less => ?_⟩ (Nat.lt_of_succ_lt_succ within)
        exact (lacks_succ link j).1 (first (j + 1) (Nat.succ_lt_succ less))

theorem chainValue?_of_ends {i n : Nat} (lacks : ∀ j < n, s.Lacks key id j) (ends : s.Ends id i) (within : i < n) :
    s.chainValue? key n id = some .nil := by
  induction n generalizing id i with
  | zero => omega
  | succ n ih =>
    obtain ⟨t, there, last⟩ := ends
    have empty := lacks_zero.1 (lacks 0 (Nat.succ_pos n))
    rw [chainValue?]
    cases link : (s.table id).metatable with
    | none => simp [empty]
    | some parent =>
      simp only [empty, if_true]
      cases i with
      | zero =>
        cases there
        rw [link] at last
        cases last
      | succ i =>
        rw [ancestor?, link] at there
        refine ih (fun j less => ?_) ⟨t, there, last⟩ (Nat.lt_of_succ_lt_succ within)
        exact (lacks_succ link j).1 (lacks (j + 1) (Nat.succ_lt_succ less))

theorem chainValue?_of_links {n : Nat} (lacks : ∀ j < n, s.Lacks key id j)
    (goesOn : (s.ancestor? n id).isSome) : s.chainValue? key n id = none := by
  induction n generalizing id with
  | zero => rfl
  | succ n ih =>
    have empty := lacks_zero.1 (lacks 0 (Nat.succ_pos n))
    rw [chainValue?]
    cases link : (s.table id).metatable with
    | none =>
      rw [ancestor?, link] at goesOn
      cases goesOn
    | some parent =>
      rw [ancestor?, link] at goesOn
      simp only [empty, if_true]
      exact ih (fun j less => (lacks_succ link j).1 (lacks (j + 1) (Nat.succ_lt_succ less))) goesOn

/-- Where there is a value, there is a first one. -/
theorem exists_hits {i : Nat} (some' : ¬s.Lacks key id i) : ∃ j ≤ i, ∃ v, s.Hits key id j v := by
  induction i using Nat.strong_induction_on with
  | _ i ih =>
    by_cases before : ∃ j < i, ¬s.Lacks key id j
    · obtain ⟨j, less, there⟩ := before
      obtain ⟨k, le, v, hits⟩ := ih j less there
      exact ⟨k, by omega, v, hits⟩
    · simp only [Lacks, not_forall] at some'
      obtain ⟨t, there, value⟩ := some'
      refine ⟨i, Nat.le_refl i, _, ⟨t, there, rfl⟩, Bool.not_eq_true _ ▸ value, fun j less => ?_⟩
      by_contra there
      exact before ⟨j, less, there⟩

/-! ## Writes -/

/-- A read that does not come to the only table that differs. -/
theorem chainValue?_congr (target : Nat) {n : Nat} (links : ∀ t, (s'.table t).metatable = (s.table t).metatable)
    (values : ∀ t, t ≠ target → (s'.table t).get key = (s.table t).get key)
    (apart : ∀ i < n, ¬s.Reaches key id i target) : s'.chainValue? key n id = s.chainValue? key n id := by
  induction n generalizing id with
  | zero => rfl
  | succ n ih =>
    have other : id ≠ target := by
      rintro rfl
      exact apart 0 (Nat.succ_pos n) ⟨rfl, fun j less => by omega⟩
    rw [chainValue?, chainValue?, links, values id other]
    cases empty : ((s.table id).get key).isNil with
    | false => rfl
    | true =>
      cases link : (s.table id).metatable with
      | none => rfl
      | some parent =>
        simp only [if_true]
        refine ih fun i less reaches => apart (i + 1) (Nat.succ_lt_succ less) ?_
        refine ⟨by rw [ancestor?, link]; exact reaches.1, fun j before => ?_⟩
        cases j with
        | zero => exact lacks_zero.2 empty
        | succ j => exact (lacks_succ link j).2 (reaches.2 j (Nat.lt_of_succ_lt_succ before))

/-- A write changes the entries of one table, and no metatable. -/
theorem table_write (s : Store) (target : Nat) (k v : Value) (t : Nat) :
    let s' := ((HostAction.write target k v).run.run s).2
    (s'.table t).metatable = (s.table t).metatable ∧ (t ≠ target → s'.table t = s.table t) := by
  have assigned (key : Key) : ((s.assign target key k v).table t).metatable = (s.table t).metatable ∧
      (t ≠ target → (s.assign target key k v).table t = s.table t) := by
    simp only [Store.table, Store.assign, Array.getElem?_modify]
    by_cases same : target = t
    · subst same
      refine ⟨?_, fun other => absurd rfl other⟩
      cases s.tables[target]? with
      | none => simp
      | some old => simp [Table.metatable_assign]
    · simp [same]
  cases valid : Key.ofValue k with
  | error fault =>
    simp only [HostAction.write, valid]
    exact ⟨rfl, fun _ => rfl⟩
  | ok key =>
    simp only [HostAction.write, valid]
    exact assigned key

end Store

/-- A read gives the first value on the chain of prototypes, within the limit. -/
theorem Store.lookup_first_hit (s : Store) (id : Nat) (key : Value) (limit : Nat) :
    ((∃ i ≤ limit, ¬s.Lacks key id i) → ∃ i ≤ limit, ∃ v, s.Hits key id i v ∧ s.lookup id key limit = .ok v) ∧
    ((∀ i ≤ limit, s.Lacks key id i) →
      ((∃ i ≤ limit, s.Ends id i) → s.lookup id key limit = .ok .nil) ∧
      ((s.ancestor? (limit + 1) id).isSome → ∃ text, s.lookup id key limit = .error (.runtime text)) ∧
      ((∃ i ≤ limit, s.Ends id i) ∨ (s.ancestor? (limit + 1) id).isSome)) ∧
    (∀ i j t, i < j → s.ancestor? i id = some t → s.ancestor? j id = some t → (∀ n < j, s.Lacks key id n) →
      ∃ text, s.lookup id key limit = .error (.runtime text)) ∧
    (∀ m : Machine, m.store = s → m.config.maxChainDepth = limit → Exec.index (.table id) key m =
      match s.lookup id key limit with
      | .ok v => .ok v m
      | .error fault => .error fault m) ∧
    ∀ target k v, (((HostAction.write target k v).run.run s).2.lookup id key limit ≠ s.lookup id key limit →
      ∃ i ≤ limit, s.Reaches key id i target) := by
  have overflow (lacks : ∀ i ≤ limit, s.Lacks key id i) (goesOn : (s.ancestor? (limit + 1) id).isSome) :
      ∃ text, s.lookup id key limit = .error (.runtime text) := by
    rw [lookup, chainValue?_of_links (fun j less => lacks j (Nat.le_of_lt_succ less)) goesOn]
    exact ⟨_, rfl⟩
  refine ⟨?_, fun lacks => ⟨?_, overflow lacks, ?_⟩, ?_, ?_, ?_⟩
  · rintro ⟨i, within, there⟩
    obtain ⟨j, le, v, hits⟩ := exists_hits there
    refine ⟨j, by omega, v, hits, ?_⟩
    rw [lookup, chainValue?_of_hits hits (by omega)]
  · rintro ⟨i, within, ends⟩
    rw [lookup, chainValue?_of_ends (fun j less => lacks j (Nat.le_of_lt_succ less)) ends (by omega)]
  · cases goesOn : s.ancestor? (limit + 1) id with
    | some t => exact Or.inr rfl
    | none =>
      obtain ⟨i, less, ends⟩ := exists_ends goesOn
      exact Or.inl ⟨i, by omega, ends⟩
  · intro i j t before there back lacks
    obtain ⟨p, rfl⟩ : ∃ p, j = i + p := ⟨j - i, by omega⟩
    have cycle := ancestor?_of_cycle there back (by omega)
    refine overflow (fun n _ => ?_) ?_
    · obtain ⟨j, less, same, -⟩ := cycle n
      intro t' there'
      exact lacks j less t' (same ▸ there')
    · obtain ⟨-, -, -, goesOn⟩ := cycle (limit + 1)
      exact goesOn
  · rintro m rfl rfl
    simp only [Exec.index, Exec.bind_apply, Exec.get_apply]
    cases m.store.lookup id key m.config.maxChainDepth <;> rfl
  · intro target k v differs
    by_contra apart
    apply differs
    have written := s.table_write target k v
    rw [lookup, lookup, chainValue?_congr target (fun t => (written t).1)]
    · exact fun t other => by rw [(written t).2 other]
    · exact fun i less reaches => apart ⟨i, by omega, reaches⟩

end ScriptEngine
