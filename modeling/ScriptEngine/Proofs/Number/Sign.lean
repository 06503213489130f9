import Mathlib
import ScriptEngine.Number.Reading

/-!
# Numbers without a sign

The two zeros are equal and are not the same. On numbers whose sign bit is clear, equality tells all
values apart (`eq_of_beq_unsigned`), and what a numeral without a sign denotes is such a number
(`isNegative_ofDecimal`).
-/

namespace ScriptEngine.Number

open Float.Model (UnpackedFloat)
open Float.Model.UnpackedFloat

attribute [grind =] naturalFrom? unsigned? natural?

/-- Not a number, or a number whose sign is plus. -/
def Unsigned : UnpackedFloat → Prop
  | .infinity s | .zero s | .finite s .. => s = .positive
  | .notANumber => True

theorem isNegative_iff (x : Float) : isNegative x = x.toBits.toBitVec.msb := by
  have high : (x.toBits >>> 63).toNat = x.toBits.toNat / 2 ^ 63 := by
    simp [Nat.shiftRight_eq_div_pow]
  have bound := x.toBits.toNat_lt
  rw [isNegative, BitVec.msb_eq_decide, Bool.eq_iff_iff, beq_iff_eq, decide_eq_true_iff,
    ← UInt64.toNat_inj, high]
  show x.toBits.toNat / 2 ^ 63 = 1 ↔ 2 ^ 63 ≤ x.toBits.toNat
  omega

/-! ## Equality -/

theorem unpackSign_eq (b : BitVec 64) :
    @unpackSign .binary64 b = BitVec.ofBool b.msb := by
  apply BitVec.eq_of_getLsbD_eq
  intro i inside
  obtain rfl : i = 0 := by omega
  rw [BitVec.msb_eq_getLsbD_last]
  simp [unpackSign]
  rfl

/-- The parts of a number determine it. -/
theorem eq_of_parts {b c : BitVec 64} (sign : b.msb = c.msb)
    (exponent : @unpackExponent .binary64 b = @unpackExponent .binary64 c)
    (mantissa : @unpackMantissa .binary64 b = @unpackMantissa .binary64 c) :
    b = c := by
  apply BitVec.eq_of_getLsbD_eq
  intro i inside
  by_cases low : i < 52
  · have bit := congrArg (·.getLsbD i) mantissa
    simpa [unpackMantissa, low] using bit
  · by_cases middle : i < 63
    · have bit := congrArg (·.getLsbD (i - 52)) exponent
      simpa [unpackExponent, show i - 52 < 11 by omega, show 52 + (i - 52) = i by omega] using bit
    · obtain rfl : i = 63 := by omega
      simpa [BitVec.msb_eq_getLsbD_last] using sign

/-- The exponent field and the fraction field of a number. -/
def fields? : UnpackedFloat → Option (Nat × Nat)
  | .infinity _ => some (2047, 0)
  | .notANumber => none
  | .zero _ => some (0, 0)
  | .finite _ m e _ => some (if m < 2 ^ 52 then (0, m) else ((e + 1075).toNat, m - 2 ^ 52))

theorem fields?_unpack {b : BitVec 64} {fields : Nat × Nat}
    (h : fields? (UnpackedFloat.unpack .binary64 b) = some fields) :
    fields = ((@unpackExponent .binary64 b).toNat,
      (@unpackMantissa .binary64 b).toNat) := by
  have small := (@unpackMantissa .binary64 b).isLt
  simp only [UnpackedFloat.unpack] at h
  split at h
  · rename_i top
    split at h
    · rename_i none
      rw [top, none]
      exact (Option.some.inj h).symm
    · cases h
  · split at h
    · rename_i low
      split at h
      · rename_i none
        rw [low, none]
        exact (Option.some.inj h).symm
      · rw [fields?, if_pos small] at h
        rw [low]
        exact (Option.some.inj h).symm
    · have implicit : (1#1 ++ @unpackMantissa .binary64 b).toNat =
          2 ^ 52 + (@unpackMantissa .binary64 b).toNat := by
        rw [BitVec.toNat_append, ← Nat.shiftLeft_add_eq_or_of_lt small]
        rfl
      rw [fields?, implicit, if_neg (by omega), Nat.add_sub_cancel_left] at h
      rw [← Option.some.inj h]
      have unbiased : ∀ n : Int,
          n - (Float.Model.Format.binary64.exponentBias + (52 : Nat)) + 1075 = n := by
        intro n
        show n - (1023 + 52) + 1075 = n
        omega
      rw [unbiased, Int.toNat_natCast]

/-- What compares as equal has the same fields; and it is the same, or a zero. -/
theorem fields?_eq_of_compare {f g : UnpackedFloat} (equal : f.compare g = some .eq) :
    ∃ fields, fields? f = some fields ∧ fields? g = some fields ∧ (f = g ∨ fields = (0, 0)) := by
  have digits {m m' : Nat} {e e' : Int} (same : (compare e e').then (compare m m') = .eq) :
      m = m' ∧ e = e' := by
    rw [Ordering.then_eq_eq] at same
    exact ⟨Nat.compare_eq_eq.1 same.2, Int.compare_eq_eq.1 same.1⟩
  unfold UnpackedFloat.compare at equal
  split at equal <;> try cases equal
  · rename_i s s'
    refine ⟨_, rfl, rfl, .inl ?_⟩
    cases s <;> cases s' <;> first | rfl | cases equal
  · exact ⟨_, rfl, rfl, .inr rfl⟩
  · obtain ⟨rfl, rfl⟩ := digits (by simpa using equal)
    exact ⟨_, rfl, rfl, .inl rfl⟩
  · obtain ⟨rfl, rfl⟩ := digits (Option.some.inj equal)
    exact ⟨_, rfl, rfl, .inl rfl⟩

/-- Among numbers without a sign, equality tells all values apart. -/
theorem eq_of_beq_unsigned {x y : Float} (hx : isNegative x = false) (hy : isNegative y = false)
    (equal : (x == y) = true) : x = y := by
  rw [isNegative_iff] at hx hy
  have compared : (UnpackedFloat.unpack .binary64 x.toBits.toBitVec).compare
      (UnpackedFloat.unpack .binary64 y.toBits.toBitVec) = some .eq :=
    beq_iff_eq.1 equal
  obtain ⟨fields, left, right, -⟩ := fields?_eq_of_compare compared
  obtain ⟨exponent, mantissa⟩ :=
    Prod.mk.inj ((fields?_unpack left).symm.trans (fields?_unpack right))
  have same := eq_of_parts (hx.trans hy.symm) (BitVec.eq_of_toNat_eq exponent)
    (BitVec.eq_of_toNat_eq mantissa)
  obtain ⟨⟨⟨bits⟩, _⟩⟩ := x
  obtain ⟨⟨⟨bits'⟩, _⟩⟩ := y
  cases (same : bits = bits')
  rfl

/-! ## Packing and rounding -/

variable {f g : UnpackedFloat}

theorem unsigned_unpack {b : BitVec 64} (plus : b.msb = false) :
    Unsigned (UnpackedFloat.unpack .binary64 b) := by
  have sign : Sign.ofBitVec (@unpackSign .binary64 b) = .positive := by
    rw [unpackSign_eq, plus]
    rfl
  simp only [UnpackedFloat.unpack]
  split
  · split
    · exact sign
    · trivial
  · split
    · split
      · exact sign
      · exact sign
    · exact sign

theorem msb_packComponents (exponent : BitVec 11) (mantissa : BitVec 52) :
    (packComponents .binary64 .positive exponent mantissa).msb = false := by
  rw [BitVec.msb_eq_decide, decide_eq_false_iff_not]
  show ¬2 ^ 63 ≤ (0#1 ++ exponent ++ mantissa).toNat
  rw [BitVec.toNat_append, BitVec.toNat_append]
  have := exponent.isLt
  have := mantissa.isLt
  rw [← Nat.shiftLeft_add_eq_or_of_lt mantissa.isLt]
  simp [Nat.shiftLeft_eq]
  omega

theorem isNegative_pack (h : Unsigned f) : isNegative (.ofModel (.pack f)) = false := by
  rw [isNegative_iff]
  show (UnpackedFloat.pack .binary64 f).msb = false
  fun_cases UnpackedFloat.pack .binary64 f with
  | case1 => exact msb_packComponents _ _
  | _ =>
    cases h
    exact msb_packComponents _ _

theorem unsigned_roundWithAccuracy (mantissa : Nat) (exponent : Int) (accuracy : Accuracy) :
    Unsigned (roundWithAccuracy .binary64 .positive mantissa exponent accuracy) := by
  simp only [roundWithAccuracy]
  split
  · rfl
  · rfl

theorem unsigned_mul (hf : Unsigned f) (hg : Unsigned g) : Unsigned (mul .binary64 f g) := by
  fun_cases mul .binary64 f g <;> simp only [Unsigned] at hf hg ⊢ <;> subst_vars <;> try rfl
  exact unsigned_roundWithAccuracy _ _ _

theorem unsigned_div (hf : Unsigned f) (hg : Unsigned g) : Unsigned (div .binary64 f g) := by
  fun_cases div .binary64 f g <;> simp only [Unsigned] at hf hg ⊢ <;> subst_vars <;> try rfl
  exact unsigned_roundWithAccuracy _ _ _

/-! ## Numerals -/

theorem unsigned_toModel {x : Float} (h : isNegative x = false) : Unsigned x.toModel.unpack :=
  unsigned_unpack (isNegative_iff x ▸ h)

theorem isNegative_ofBits {bits : UInt64} (plus : bits.toBitVec.msb = false) :
    isNegative (Float.ofBits bits) = false :=
  isNegative_pack (unsigned_unpack plus)

theorem isNegative_toFloat (n : UInt64) : isNegative n.toFloat = false := by
  refine isNegative_pack (f := ofUInt64 .binary64 n) ?_
  simp only [ofUInt64, ofNat, ofInt, UnpackedFloat.normalize]
  split
  · rename_i less
    rw [Int.compare_eq_lt] at less
    omega
  · rfl
  · exact unsigned_roundWithAccuracy _ _ _

theorem unsigned_ofScientific (digits : Nat) (exponent : Int) :
    Unsigned (ofScientific .binary64 digits exponent) := by
  unfold ofScientific
  split
  · rfl
  · split
    · rfl
    · split
      · rfl
      · split
        · exact unsigned_roundWithAccuracy _ _ _
        · exact unsigned_roundWithAccuracy _ _ _

theorem isNegative_of_mem_powers {x : Float} (mem : x ∈ Float.exactlyRepresentablePowersOfTen) :
    isNegative x = false := by
  have all : ∀ x ∈ Float.exactlyRepresentablePowersOfTen.toList, isNegative x = false := by
    simp only [Float.exactlyRepresentablePowersOfTen, List.forall_mem_cons]
    repeat refine ⟨isNegative_ofBits rfl, ?_⟩
    nofun
  exact all x (Array.mem_toList_iff.2 mem)

theorem isNegative_ofScientific (digits : Nat) (fraction : Bool) (exponent : Nat) :
    isNegative (Float.ofScientific digits fraction exponent) = false := by
  unfold Float.ofScientific
  split
  · have left := unsigned_toModel (isNegative_toFloat digits.toUInt64)
    have right := fun i inside => unsigned_toModel (isNegative_of_mem_powers
      (Array.getElem_mem (i := i) (h := inside)))
    split
    · exact isNegative_pack (unsigned_div left (right _ _))
    · exact isNegative_pack (unsigned_mul left (right _ _))
  · exact isNegative_pack (unsigned_ofScientific digits _)

theorem isNegative_zero : isNegative 0.0 = false := isNegative_ofScientific 0 true 1

theorem isNegative_one : isNegative 1.0 = false := isNegative_ofScientific 10 true 1

theorem isNegative_ofNat (n : Nat) : isNegative (Float.ofNat n) = false :=
  isNegative_ofScientific n false 0

theorem isNegative_ofDecimal (digits : Nat) (exponent : Int) :
    isNegative (ofDecimal digits exponent) = false := by
  have infinity : isNegative (Float.ofBits 0x7ff0000000000000) = false := isNegative_ofBits rfl
  simp only [ofDecimal, apply_ite isNegative, isNegative_zero, isNegative_ofScientific,
    infinity, ite_self]

end ScriptEngine.Number
