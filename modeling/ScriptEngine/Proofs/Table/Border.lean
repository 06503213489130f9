import ScriptEngine.Proofs.Table.Map

/-!
# The length of a table is a border

A border of a sequence is a position that is filled, or 0, and that an empty one follows. The length is found
in the array part alone, by its last element or by bisection; that is enough, because the slots never hold
the key that would continue the array part (`Regular.holdsAt_iff`). So the length is a border after any
writes, and it is the only one if the sequence has no holes (`length_isBorder`).

A number is the key of an integer only if it is that integer exactly. Every integer up to `2 ^ 53` is a number;
the next one is not.
-/

namespace ScriptEngine

/-- The value is the integer `n`, not a number near it. -/
def Value.IsInteger (v : Value) (n : Nat) : Prop :=
  ∃ x, v = .number x ∧ Number.isIntegral x = true ∧ Number.truncate x = n

namespace Table

variable {t : Table} {key other : Value} {n : Nat}

theorem arrayIndex?_of_isInteger (h : key.IsInteger (n + 1)) : arrayIndex? key = some n := by
  obtain ⟨x, rfl, integral, whole⟩ := h
  exact arrayIndex?_number integral whole

theorem isInteger_of_arrayIndex? (h : arrayIndex? key = some n) : key.IsInteger (n + 1) := number_of_arrayIndex? h

theorem isInteger_ofNat (short : n < 2 ^ 53) : Value.IsInteger (.number (Float.ofNat (n + 1))) (n + 1) :=
  isInteger_of_arrayIndex? (arrayIndex?_ofNat short)

theorem isKey_of_isInteger (h : key.IsInteger n) : key.isKey = true := by
  obtain ⟨x, rfl, integral, -⟩ := h
  rw [Value.isKey, Number.isNaN_of_isIntegral integral]
  rfl

/-- Positive integers are equal as keys only if they are the same. -/
theorem eq_of_beq_of_isInteger {i j : Nat} (hi : key.IsInteger (i + 1)) (hj : other.IsInteger (j + 1))
    (equal : (key == other) = true) : i = j := by
  obtain ⟨k, found⟩ := Key.ofValue_of_isKey (isKey_of_isInteger hi)
  obtain ⟨k', found'⟩ := Key.ofValue_of_isKey (isKey_of_isInteger hj)
  have same := (Key.beq_iff_ofValue (isKey_of_isInteger hi) (isKey_of_isInteger hj)).1 equal
  rw [found, found'] at same
  cases same
  have position := arrayIndex?_congr found found'
  rw [arrayIndex?_of_isInteger hi, arrayIndex?_of_isInteger hj] at position
  exact Option.some.inj position

/-- The table holds something under the integer `n`. -/
def HoldsAt (t : Table) (n : Nat) : Prop := ∃ key : Value, key.IsInteger n ∧ t.get key ≠ .nil

/-- Position `i` of an array holds something. -/
def Filled (array : Array Value) (i : Nat) : Prop := (array[i]?).getD .nil ≠ .nil

/-- What continues the array part is not among the slots, so the array part decides up to there. -/
theorem Regular.holdsAt_iff (regular : t.Regular) (near : n ≤ t.array.size) :
    t.HoldsAt (n + 1) ↔ Filled t.array n := by
  have value (key : Value) (integer : key.IsInteger (n + 1)) : t.get key = (t.array[n]?).getD .nil := by
    have position := arrayIndex?_of_isInteger integer
    obtain ⟨k, found⟩ := Key.ofValue_of_isKey (isKey_of_isInteger integer)
    rw [get_of_key found, position]
    cases inside : t.array[n]? with
    | some v => simp [inside]
    | none =>
      have absent : k ∉ t.index := fun mem => by
        have := regular.apart found mem position
        omega
      simp [inside, slotValue_of_not_indexed (Std.HashMap.getElem?_eq_none absent)]
  constructor
  · rintro ⟨key, integer, held⟩
    rwa [value key integer] at held
  · intro filled
    have inside : n < t.array.size := by
      by_contra outside
      exact filled (by rw [Array.getElem?_eq_none (Nat.le_of_not_lt outside)]; rfl)
    have integer := isInteger_ofNat (Nat.lt_of_lt_of_le inside regular.short)
    exact ⟨_, integer, by rwa [value _ integer]⟩

/-- Bisection keeps a filled position, or 0, on the left and an empty one on the right. -/
theorem bisect_border {array : Array Value} {lo hi : Nat} (below : lo < hi)
    (left : lo = 0 ∨ Filled array (lo - 1)) (right : ¬Filled array (hi - 1)) :
    (bisect array lo hi = 0 ∨ Filled array (bisect array lo hi - 1)) ∧ ¬Filled array (bisect array lo hi) ∧
      bisect array lo hi < hi := by
  fun_induction bisect array lo hi with
  | case1 lo hi wide mid empty ih =>
    obtain ⟨filled, next, bound⟩ := ih (by omega) left (fun h => h (Value.isNil_iff.1 empty))
    exact ⟨filled, next, by omega⟩
  | case2 lo hi wide mid filled ih =>
    exact ih (by omega) (.inr fun h => filled (Value.isNil_iff.2 h)) right
  | case3 lo hi narrow =>
    have last : lo = hi - 1 := by omega
    exact ⟨left, last ▸ right, below⟩

/-- The length is a border of the array part. -/
theorem length_border (t : Table) :
    (t.length = 0 ∨ Filled t.array (t.length - 1)) ∧ ¬Filled t.array t.length ∧ t.length ≤ t.array.size := by
  have past : ¬Filled t.array t.array.size := by simp [Filled]
  unfold length
  cases found : t.array.back? with
  | none =>
    have empty : t.array = #[] := Array.back?_eq_none_iff.1 found
    refine ⟨.inl rfl, ?_, Nat.zero_le _⟩
    rwa [empty] at past ⊢
  | some last =>
    have final : t.array[t.array.size - 1]? = some last := by rw [← Array.back?_eq_getElem?, found]
    have some' : t.array.size - 1 < t.array.size := (Array.getElem?_eq_some_iff.1 final).1
    dsimp only
    split
    · rename_i empty
      have right : ¬Filled t.array (t.array.size - 1) := by
        rw [Filled, final]
        exact fun h => h (Value.isNil_iff.1 empty)
      obtain ⟨filled, next, bound⟩ := bisect_border (show 0 < t.array.size by omega) (.inl rfl) right
      exact ⟨filled, next, bound.le⟩
    · rename_i filled
      refine ⟨.inr ?_, past, Nat.le_refl _⟩
      rw [Filled, final]
      exact fun h => filled (Value.isNil_iff.2 h)

/-- The length is a border of what the table holds under integers. -/
theorem Regular.length_border (regular : t.Regular) :
    (t.length = 0 ∨ t.HoldsAt t.length) ∧ ¬t.HoldsAt (t.length + 1) := by
  obtain ⟨filled, next, bound⟩ := Table.length_border t
  refine ⟨filled.imp_right fun filled => ?_, fun held => next ((regular.holdsAt_iff bound).1 held)⟩
  cases some' : t.length with
  | zero =>
    -- a border at 0 of an array that has its first element
    rw [some'] at filled next
    exact absurd filled next
  | succ n =>
    rw [some'] at filled bound
    exact (regular.holdsAt_iff (Nat.le_of_succ_le bound)).2 filled

/-- After any writes the length is 0 or an integer that the table holds something under, and under the next
integer it holds nothing: whatever is written there, no entry is lost. The next integer is a number while the
length is below `2 ^ 53`. If the positive integers that the table holds something under are those up to
some `m`, that is the length. -/
theorem length_isBorder (writes : List Write) :
    ((written writes).length = 0 ∨
      (written writes).get (.number (Float.ofNat (written writes).length)) ≠ .nil) ∧
    (∀ key : Value, key.IsInteger ((written writes).length + 1) →
      (written writes).get key = .nil ∧
      ∀ v other, (written writes).get other ≠ .nil →
        (written (writes ++ [.value key v])).get other = (written writes).get other) ∧
    ((written writes).length < 2 ^ 53 →
      Value.IsInteger (.number (Float.ofNat ((written writes).length + 1))) ((written writes).length + 1)) ∧
    ∀ m, (∀ n, 1 ≤ n → ((written writes).HoldsAt n ↔ n ≤ m)) → (written writes).length = m := by
  have regular := (regular_written writes).1
  obtain ⟨held, next⟩ := regular.length_border
  have short : (written writes).length ≤ 2 ^ 53 := (Table.length_border _).2.2.trans regular.short
  refine ⟨?_, fun key integer => ?_, isInteger_ofNat, fun m exactly => ?_⟩
  · cases size : (written writes).length with
    | zero => exact .inl rfl
    | succ n =>
      rw [size] at held short
      obtain ⟨key, integer, filled⟩ := held.resolve_left n.succ_ne_zero
      refine .inr ?_
      rwa [eq_of_arrayIndex? (arrayIndex?_ofNat short) (arrayIndex?_of_isInteger integer)]
  · have empty : (written writes).get key = .nil := by
      by_contra filled
      exact next ⟨key, integer, filled⟩
    refine ⟨empty, fun v other filled => ?_⟩
    rw [written_concat, (regular.apply _).2, if_neg]
    intro same
    obtain ⟨accepted, equal⟩ := Bool.and_eq_true_iff.1 same
    obtain ⟨k, found⟩ := Key.ofValue_of_isKey accepted
    cases isKey : other.isKey with
    | false => exact filled (get_of_not_key isKey)
    | true =>
      have found' := found ▸ ((Key.beq_iff_ofValue accepted isKey).1 equal).symm
      exact filled ((get_congr found' found).trans empty)
  · have lower : ¬(written writes).length + 1 ≤ m := fun le => next ((exactly _ (Nat.le_add_left 1 _)).2 le)
    have upper : (written writes).length ≤ m := by
      rcases held with none' | held
      · omega
      · by_cases none' : (written writes).length = 0
        · omega
        · exact (exactly _ (Nat.one_le_iff_ne_zero.2 none')).1 held
    omega

/-- A sequence that was longer: position 3 is cleared again, so that the array part ends with a hole. -/
def shortened : List Write :=
  [.value (.number 2) (.string "b"), .value (.number 1) (.string "a"), .value (.number 3) (.string "c"),
    .value (.number 3) .nil]

theorem holdsAt_shortened (n : Nat) (pos : 1 ≤ n) : (written shortened).HoldsAt n ↔ n ≤ 2 := by
  have integer (i : Nat) (short : i < 3) : Value.IsInteger (.number (Float.ofNat (i + 1))) (i + 1) :=
    isInteger_ofNat (by omega)
  have reads := (get_written shortened).1
  obtain ⟨i, rfl⟩ := Nat.exists_eq_add_of_le' pos
  constructor
  · rintro ⟨key, here, held⟩
    by_contra above
    refine held ((reads key).trans ?_)
    by_cases third : i = 2
    · subst third
      rw [eq_of_arrayIndex? (arrayIndex?_of_isInteger here) (arrayIndex?_of_isInteger (integer 2 (by omega)))]
      rfl
    · have none' : shortened.filter (fun w => w.key.isKey && w.key == key) = [] := by
        have apart (j : Nat) (short : j < 3) : ¬(Value.number (Float.ofNat (j + 1)) == key) = true := fun equal => by
          have := eq_of_beq_of_isInteger (integer j short) here equal
          omega
        simp only [shortened, List.filter_eq_nil_iff, List.forall_mem_cons, Bool.and_eq_true, not_and]
        exact ⟨fun _ => apart 1 (by omega), fun _ => apart 0 (by omega), fun _ => apart 2 (by omega),
          fun _ => apart 2 (by omega), fun w mem => absurd mem List.not_mem_nil⟩
      rw [lastWritten, none']
      rfl
  · intro below
    refine ⟨_, integer i (by omega), ?_⟩
    rw [reads]
    rcases i with _ | _ | i
    · exact fun none' : Value.string "a" = .nil => by cases none'
    · exact fun none' : Value.string "b" = .nil => by cases none'
    · omega

theorem length_isBorder_shortened :
    (written shortened).length = 2 ∧ (written shortened).get (.number 3) = .nil := by
  obtain ⟨-, next, number, border⟩ := length_isBorder shortened
  have length := border 2 holdsAt_shortened
  rw [length] at next number
  exact ⟨length, (next _ (number (by decide))).1⟩

end Table

end ScriptEngine
