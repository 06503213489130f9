import Mathlib
import ScriptEngine.Library

/-!
# Unpacking a range of a table

A call of `unpack` asks for a table and the two ends of a range (`Asks`). An empty range has no values, a range
of at most `limit` values has them all, in order and read without the prototype, and a longer one is refused
(`unpack_range`). The limit is read as a signed number, so one of `2 ^ 63` or more refuses every range that is
not empty.

The ends are 64-bit numbers (`toInt64_bounds`) and every position read lies between them. The difference of the
ends alone may be larger; it stops at the greatest number then, which no limit exceeds.
-/

namespace ScriptEngine

open Number in
theorem Number.toInt64_bounds (x : Float) : leastInt64 ≤ toInt64 x ∧ toInt64 x ≤ greatestInt64 := by
  have ordered : leastInt64 ≤ greatestInt64 := by decide
  unfold toInt64 clamp
  split
  · decide
  · split
    · split
      · exact ⟨le_rfl, ordered⟩
      · exact ⟨ordered, le_rfl⟩
    · exact ⟨le_max_left _ _, max_le ordered (min_le_left _ _)⟩

namespace Library

/-- A call with these arguments asks for the range from `first` to `last` of the table `t`: from the second
argument on, or 1 if that is no number, up to the third, or the length if that is no number. -/
structure Asks (args : List Value) (s : Store) (t : Table) (first last : Int) : Prop where
  table : ∃ id, args[0]? = some (Value.table id) ∧ t = s.table id
  first : first = Number.toInt64 ((args[1]?.bind Value.number?).getD 1.0)
  last : last = ((args[2]?.bind Value.number?).map Number.toInt64).getD t.length

/-- The values of a table at `count` integers from `first` on. -/
def valuesFrom (t : Table) (first : Int) (count : Nat) : List Value :=
  (List.range count).map fun (k : Nat) => t.get (.number (Float.ofInt (first + k)))

variable {t : Table} {first last : Int} {limit : Nat} {args : List Value} {s : Store}

theorem asSigned_of_lt (small : limit < 2 ^ 63) : asSigned limit = limit := by
  unfold asSigned
  apply Int.bmod_eq_of_le_mul_two <;> omega

theorem asSigned_of_ge (large : 2 ^ 63 ≤ limit) (word : limit < 2 ^ 64) : asSigned limit < 0 := by
  have wrapped : asSigned limit = limit - 2 ^ 64 := by
    unfold asSigned
    rw [← Int.sub_bmod_right]
    apply Int.bmod_eq_of_le_mul_two <;> omega
  omega

/-- Whether a range is refused, for a limit of 64 bits. -/
theorem refuses_iff (word : limit < 2 ^ 64) (some' : first ≤ last) :
    asSigned limit ≤ min (last - first) Number.greatestInt64 ↔ ¬(limit < 2 ^ 63 ∧ last - first + 1 ≤ limit) := by
  have greatest : Number.greatestInt64 = 2 ^ 63 - 1 := rfl
  by_cases small : limit < 2 ^ 63
  · -- a limit below `2 ^ 63` is not above the number that the difference stops at
    rw [asSigned_of_lt small, le_min_iff, greatest]
    omega
  · have negative := asSigned_of_ge (Nat.le_of_not_lt small) word
    rw [le_min_iff, greatest]
    omega

theorem unpackRange_eq (word : limit < 2 ^ 64) : unpackRange t first last limit =
    if last < first then .ok []
    else if limit < 2 ^ 63 ∧ last - first + 1 ≤ limit then .ok (valuesFrom t first (last - first + 1).toNat)
    else .error (.runtime "too many results to unpack") := by
  unfold unpackRange
  by_cases empty : last < first
  · rw [if_pos empty, if_pos empty]
  · have some' : first ≤ last := Int.not_lt.1 empty
    rw [if_neg empty, if_neg empty]
    by_cases fits : limit < 2 ^ 63 ∧ last - first + 1 ≤ limit
    · have count : (last - first).toNat + 1 = (last - first + 1).toNat := by omega
      rw [if_neg fun refused => (refuses_iff word some').1 refused fits, if_pos fits, valuesFrom, integersFrom,
        List.map_map, count]
      rfl
    · rw [if_pos ((refuses_iff word some').2 fits), if_neg fits]

/-- The end of the range: the third argument if it is a number, else the length. -/
theorem last_eq (v : Value) (n : Nat) :
    (match v with
      | .number x => Number.toInt64 x
      | _ => (n : Int)) = (v.number?.map Number.toInt64).getD n := by
  cases v <;> rfl

theorem unpack_of_asks (asks : Asks args s t first last) :
    (unpack limit args).run.run s = (unpackRange t first last limit, s) := by
  obtain ⟨⟨id, table, rfl⟩, rfl, rfl⟩ := asks
  have given : tableArgument "unpack" args 1 = pure id := by
    rw [tableArgument, table]
  have second : (Value.argument args 2).number? = args[1]?.bind Value.number? := by
    rw [Value.argument]
    cases args[1]? <;> rfl
  have third : (args[2]?.bind Value.number?) = (Value.argument args 3).number? := by
    rw [Value.argument]
    cases args[2]? <;> rfl
  rw [unpack, given, ← second, third, ← last_eq]
  show (MonadExcept.ofExcept (unpackRange (s.table id) _ _ limit) : HostAction (List Value)).run.run s = _
  generalize unpackRange _ _ _ _ = result
  cases result <;> rfl

/-- The ends of the range are 64-bit numbers; only a table without a given end may be longer. -/
theorem Asks.bounds (asks : Asks args s t first last) : Number.leastInt64 ≤ first ∧ first ≤ Number.greatestInt64 ∧
    Number.leastInt64 ≤ last ∧ last ≤ max Number.greatestInt64 t.length := by
  obtain ⟨-, rfl, rfl⟩ := asks
  obtain ⟨low, high⟩ := Number.toInt64_bounds ((args[1]?.bind Value.number?).getD 1.0)
  refine ⟨low, high, ?_⟩
  rcases args[2]?.bind Value.number? with _ | x
  · exact ⟨Int.le_trans (by decide) (Int.natCast_nonneg _), le_max_right _ _⟩
  · exact ⟨(Number.toInt64_bounds x).1, le_max_of_le_left (Number.toInt64_bounds x).2⟩

/-- What a call of `unpack` gives; the store stays as it is. -/
theorem unpack_range (word : limit < 2 ^ 64) (asks : Asks args s t first last) :
    (unpack limit args).run.run s =
      (if last < first then .ok []
        else if limit < 2 ^ 63 ∧ last - first + 1 ≤ limit then .ok (valuesFrom t first (last - first + 1).toNat)
        else .error (.runtime "too many results to unpack"), s) ∧
      Number.leastInt64 ≤ first ∧ first ≤ Number.greatestInt64 ∧
      Number.leastInt64 ≤ last ∧ last ≤ max Number.greatestInt64 t.length := by
  refine ⟨?_, asks.bounds⟩
  rw [unpack_of_asks asks, unpackRange_eq word]

/-- A range of exactly as many values as the limit is not refused. -/
theorem unpack_range_whole :
    (unpack 2 [.table 0]).run.run { tables := #[{ array := #[.boolean true, .string "x"] }] } =
      (.ok [.boolean true, .string "x"], { tables := #[{ array := #[.boolean true, .string "x"] }] }) := by
  have asks : Asks [.table 0] { tables := #[{ array := #[.boolean true, .string "x"] }] }
      { array := #[.boolean true, .string "x"] } 1 2 := ⟨⟨0, rfl, rfl⟩, by decide, by decide⟩
  have word : 2 < 2 ^ 64 := by decide
  exact (unpack_range word asks).1

end Library

end ScriptEngine
