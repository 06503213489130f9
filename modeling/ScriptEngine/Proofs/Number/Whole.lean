import ScriptEngine.Proofs.Number.Natural

/-!
# Arithmetic on integral numbers

A number `IsInt` an integer if it is integral and has no other value. What the comparisons say of two such numbers
is what holds of the integers, however large they are (`IsInt.lt_iff`, `IsInt.le_iff`), and a sum is exact as long
as its magnitude is at most `2 ^ 53` (`IsInt.add`). Both go by the rational value of a number that is `Settled`: a
zero, or one with a mantissa of 53 bits.
-/

namespace ScriptEngine.Number

open Float.Model (UnpackedFloat Format totalExponent)
open Float.Model.UnpackedFloat

/-- The number is the integer; zero has either sign. -/
def IsInt (x : Float) (z : Int) : Prop := isIntegral x = true ∧ truncate x = z

/-! ## Values -/

/-- The rational that a finite number is. -/
def value : UnpackedFloat → ℚ
  | .finite s m e _ => s.apply m * 2 ^ e
  | _ => 0

/-- A zero, or a number whose mantissa has 53 bits and whose exponent is one that such numbers have. -/
def Settled : UnpackedFloat → Prop
  | .zero _ => True
  | .finite _ m e _ => 2 ^ 52 ≤ m ∧ m < 2 ^ 53 ∧ -1074 ≤ e ∧ e ≤ 971
  | _ => False

/-- The sign bit as a sign. -/
def sign (x : Float) : Sign := if isNegative x then .negative else .positive

theorem two_pow_pos (e : Int) : (0 : ℚ) < 2 ^ e := zpow_pos (by norm_num) e

/-- Whether a magnitude is a certain natural. -/
theorem magnitude_whole_iff {v : Magnitude} {n : Nat} :
    v.isWhole = true ∧ v.whole = n ↔ (v.mantissa : ℚ) * 2 ^ v.exponent = n := by
  obtain ⟨m, e, -⟩ := v
  simp only [Magnitude.isWhole, Magnitude.whole]
  by_cases up : 0 ≤ e
  · obtain ⟨k, rfl⟩ := Int.eq_ofNat_of_zero_le up
    rw [if_pos up, zpow_natCast, Bool.or_eq_true, decide_eq_true_iff]
    constructor
    · rintro ⟨-, rfl⟩
      rw [Int.toNat_natCast, Nat.pow_eq]
      push_cast
      rfl
    · intro same
      refine ⟨Or.inl up, ?_⟩
      rw [Int.toNat_natCast, Nat.pow_eq]
      exact_mod_cast same
  · obtain ⟨k, rfl⟩ : ∃ k : Nat, e = -k := ⟨(-e).toNat, by omega⟩
    have pos : (0 : ℚ) < 2 ^ k := by positivity
    rw [if_neg up, zpow_neg, zpow_natCast, ← div_eq_mul_inv, div_eq_iff pos.ne', Bool.or_eq_true, decide_eq_true_iff,
      beq_iff_eq, neg_neg, Int.toNat_natCast]
    constructor
    · rintro ⟨divides, rfl⟩
      have divides := Nat.dvd_of_mod_eq_zero (divides.resolve_left up)
      exact_mod_cast (Nat.div_mul_cancel divides).symm
    · intro same
      have same : m = n * 2 ^ k := by exact_mod_cast same
      subst same
      exact ⟨Or.inr (Nat.mul_mod_left _ _), Nat.mul_div_cancel _ (Nat.two_pow_pos k)⟩

section

variable {x : Float}

theorem ofBitVec_sign : Sign.ofBitVec (@unpackSign .binary64 x.toBits.toBitVec) = sign x := by
  rw [unpackSign_eq, sign, isNegative_iff]
  cases x.toBits.toBitVec.msb <;> rfl

theorem unpack_zero (exponent : exponentField x = 0) (fraction : fractionField x = 0) :
    x.toModel.unpack = .zero (sign x) := by
  rw [exponentField_eq] at exponent
  rw [fractionField_eq] at fraction
  have bottom : @unpackExponent .binary64 x.toBits.toBitVec = BitVec.ofNat Format.binary64.exponentBits 0 :=
    BitVec.eq_of_toNat_eq exponent
  have none' : @unpackMantissa .binary64 x.toBits.toBitVec = BitVec.ofNat Format.binary64.mantissaBitsWithoutImplicit 0 :=
    BitVec.eq_of_toNat_eq fraction
  have least : BitVec.ofNat Format.binary64.exponentBits 0 ≠ -(BitVec.ofNat Format.binary64.exponentBits 1) := by decide
  show UnpackedFloat.unpack .binary64 x.toBits.toBitVec = _
  simp only [UnpackedFloat.unpack, bottom, none', if_neg least, if_true, dite_true, ofBitVec_sign]

theorem unpack_finite (bottom : exponentField x ≠ 0) (top : exponentField x ≠ 2047) :
    x.toModel.unpack = .finite (sign x) (2 ^ 52 + fractionField x) (exponentField x - 1075) (by omega) := by
  have bottom' : @unpackExponent .binary64 x.toBits.toBitVec ≠ BitVec.ofNat Format.binary64.exponentBits 0 := fun same =>
    bottom (by rw [exponentField_eq, same]; rfl)
  have top' : @unpackExponent .binary64 x.toBits.toBitVec ≠ -(BitVec.ofNat Format.binary64.exponentBits 1) := fun same =>
    top (by rw [exponentField_eq, same]; rfl)
  have small := (@unpackMantissa .binary64 x.toBits.toBitVec).isLt
  have implicit : (1#1).toNat <<< Format.binary64.mantissaBitsWithoutImplicit = 2 ^ 52 := rfl
  have whole : (1#1 ++ @unpackMantissa .binary64 x.toBits.toBitVec).toNat = 2 ^ 52 + fractionField x := by
    rw [BitVec.toNat_append, ← Nat.shiftLeft_add_eq_or_of_lt small, implicit, fractionField_eq]
  show UnpackedFloat.unpack .binary64 x.toBits.toBitVec = _
  simp only [UnpackedFloat.unpack, if_neg bottom', if_neg top', whole, ofBitVec_sign, exponentField_eq]
  rfl

theorem exponentField_lt (x : Float) : exponentField x < 2048 :=
  exponentField_eq x ▸ (@unpackExponent .binary64 x.toBits.toBitVec).isLt

theorem settled_finite (bottom : exponentField x ≠ 0) (top : exponentField x ≠ 2047) : Settled x.toModel.unpack := by
  have := fractionField_lt x
  have := exponentField_lt x
  rw [unpack_finite bottom top]
  refine ⟨?_, ?_, ?_, ?_⟩ <;> omega

/-- An integral number is settled, and its value is the integer. -/
theorem IsInt.settled {z : Int} (h : IsInt x z) : Settled x.toModel.unpack ∧ value x.toModel.unpack = z := by
  obtain ⟨integral, whole⟩ := h
  rw [isIntegral, Bool.and_eq_true, isFinite, bne_iff_ne] at integral
  obtain ⟨top, integral⟩ := integral
  obtain ⟨n, same⟩ : ∃ n, (magnitude x).whole = n := ⟨_, rfl⟩
  have scaled := magnitude_whole_iff.1 ⟨integral, same⟩
  rw [truncate, same] at whole
  by_cases bottom : exponentField x = 0
  · -- with the least exponent only zero is integral
    have fraction : fractionField x = 0 := by
      by_contra some'
      rw [Magnitude.isWhole] at integral
      simp only [magnitude, if_pos bottom] at integral
      rw [Bool.or_eq_true, decide_eq_true_iff, beq_iff_eq] at integral
      have divides := Nat.dvd_of_mod_eq_zero (integral.resolve_left (by decide))
      have small := Nat.le_of_dvd (Nat.pos_of_ne_zero some') divides
      have := fractionField_lt x
      have deep : 52 ≤ (- -1074 : Int).toNat := by decide
      generalize (- -1074 : Int).toNat = depth at deep small
      have := Nat.pow_le_pow_right (show 0 < 2 by decide) deep
      simp only [Nat.pow_eq] at small
      omega
    rw [unpack_zero bottom fraction]
    refine ⟨trivial, ?_⟩
    simp only [magnitude, if_pos bottom, fraction, Nat.cast_zero, zero_mul] at scaled
    have zero : n = 0 := by exact_mod_cast scaled.symm
    subst zero
    rw [← whole]
    simp [value]
  · refine ⟨settled_finite bottom top, ?_⟩
    obtain ⟨mantissa, exponent⟩ := magnitude_of_exponent bottom
    rw [mantissa, exponent] at scaled
    rw [unpack_finite bottom top, value, ← whole, sign]
    cases isNegative x <;> simp only [Sign.apply, if_true, Bool.false_eq_true, if_false]
    · exact_mod_cast scaled
    · push_cast
      push_cast at scaled
      rw [← scaled, neg_mul]

end

section

variable {m : Nat} {e : Int} {s : Sign}

theorem sign_packComponents (exponent : BitVec 11) (mantissa : BitVec 52) :
    (packComponents .binary64 s exponent mantissa).msb = match s with
      | .negative => true
      | .positive => false := by
  cases s with
  | positive => exact msb_packComponents exponent mantissa
  | negative =>
    rw [BitVec.msb_eq_decide, decide_eq_true_iff]
    show 2 ^ 63 ≤ (1#1 ++ exponent ++ mantissa).toNat
    rw [BitVec.toNat_append, BitVec.toNat_append, ← Nat.shiftLeft_add_eq_or_of_lt mantissa.isLt,
      ← Nat.shiftLeft_add_eq_or_of_lt exponent.isLt, Nat.shiftLeft_eq, Nat.shiftLeft_eq]
    show 2 ^ 63 ≤ (1 * 2 ^ 11 + _) * 2 ^ 52 + _
    omega

/-- A settled number is stored as it is. -/
theorem fields_pack (pos : 0 < m) (settled : Settled (.finite s m e pos)) {x : Float}
    (packed : x = .ofModel (.pack (.finite s m e pos))) :
    sign x = s ∧ exponentField x = (e + 1075).toNat ∧ fractionField x = m - 2 ^ 52 := by
  obtain ⟨low, high, least, greatest⟩ := settled
  have log := log2_mul_pow low high 0
  rw [Nat.pow_zero, Nat.mul_one] at log
  have biased : (e + Format.binary64.exponentBias + Format.binary64.mantissaBitsWithoutImplicit).toNat =
      (e + 1075).toNat := by
    show (e + 1023 + 52).toNat = _
    omega
  have within : ¬2 ^ Format.binary64.exponentBits ≤ (e + 1075).toNat + 1 := by
    show ¬2048 ≤ _
    omega
  have bits : x.toBits.toBitVec = packComponents .binary64 s (.ofNat 11 (e + 1075).toNat) (.ofNat 52 m) := by
    subst packed
    show UnpackedFloat.pack .binary64 (.finite s m e pos) = _
    simp only [UnpackedFloat.pack, biased, if_neg within, log]
    exact if_pos rfl
  rw [sign, isNegative_iff, exponentField_eq, fractionField_eq, bits, sign_packComponents, unpackExponent_packComponents,
    unpackMantissa_packComponents, BitVec.toNat_ofNat, BitVec.toNat_ofNat]
  refine ⟨by cases s <;> rfl, ?_, ?_⟩
  · show _ % 2048 = _
    omega
  · show _ % 2 ^ 52 = _
    omega

/-- A settled value that is integral is stored as that integer. -/
theorem isInt_pack {f : UnpackedFloat} (settled : Settled f) {z : Int} (whole : value f = z) :
    IsInt (.ofModel (.pack f)) z := by
  cases f with
  | infinity | notANumber => cases settled
  | zero s =>
    have whole : (0 : ℚ) = z := whole
    obtain rfl : z = 0 := by exact_mod_cast whole.symm
    cases s <;> exact ⟨by decide +kernel, by decide +kernel⟩
  | finite s m e pos =>
    obtain ⟨sign', exponent, fraction⟩ := fields_pack pos settled rfl
    generalize Float.ofModel (.pack (.finite s m e pos)) = x at sign' exponent fraction ⊢
    obtain ⟨low, high, least, greatest⟩ := settled
    obtain ⟨mantissa', exponent'⟩ := magnitude_of_exponent (x := x) (by omega)
    have mantissa : (magnitude x).mantissa = m := by omega
    have exponent'' : (magnitude x).exponent = e := by omega
    have finite' : isFinite x = true := by
      rw [isFinite, bne_iff_ne, exponent]
      omega
    -- the magnitude is a natural
    have above : (0 : ℚ) < m * 2 ^ e := mul_pos (by exact_mod_cast pos) (two_pow_pos e)
    obtain ⟨n, scaled, rfl⟩ : ∃ n : Nat, (m : ℚ) * 2 ^ e = n ∧ z = s.apply n := by
      rw [value] at whole
      cases s with
      | positive =>
        have whole : (m : ℚ) * 2 ^ e = z := by exact_mod_cast whole
        have above : 0 < z := by exact_mod_cast whole ▸ above
        obtain ⟨n, rfl⟩ := Int.eq_ofNat_of_zero_le above.le
        exact ⟨n, whole, rfl⟩
      | negative =>
        have whole : (m : ℚ) * 2 ^ e = ((-z : Int) : ℚ) := by
          rw [Sign.apply] at whole
          push_cast at whole ⊢
          rw [← whole]
          ring
        have below : 0 < -z := by exact_mod_cast whole ▸ above
        obtain ⟨n, same⟩ := Int.eq_ofNat_of_zero_le below.le
        rw [same] at whole
        exact ⟨n, whole, by rw [Sign.apply]; omega⟩
    rw [← mantissa, ← exponent''] at scaled
    obtain ⟨integral, same⟩ := magnitude_whole_iff.2 scaled
    refine ⟨by rw [isIntegral, finite', integral]; rfl, ?_⟩
    rw [truncate, same]
    rw [sign] at sign'
    cases negative : isNegative x <;> rw [negative] at sign' <;> subst sign' <;> rfl

end

/-! ## Comparisons -/

/-- Mantissas of 53 bits are compared after their exponents. -/
theorem compare_scaled {m m' : Nat} {e e' : Int} (low : 2 ^ 52 ≤ m) (high : m < 2 ^ 53) (low' : 2 ^ 52 ≤ m')
    (high' : m' < 2 ^ 53) :
    (compare e e').then (compare m m') = compare ((m : ℚ) * 2 ^ e) (m' * 2 ^ e') := by
  have smaller {m m' : Nat} {e e' : Int} (high : m < 2 ^ 53) (low' : 2 ^ 52 ≤ m') (less : e < e') :
      (m : ℚ) * 2 ^ e < m' * 2 ^ e' := calc
    (m : ℚ) * 2 ^ e < 2 ^ 53 * 2 ^ e := by
      apply mul_lt_mul_of_pos_right _ (two_pow_pos e)
      exact_mod_cast high
    _ = 2 ^ 52 * 2 ^ (e + 1) := by
      rw [zpow_add_one₀ (by norm_num)]
      ring
    _ ≤ 2 ^ 52 * 2 ^ e' := by
      apply mul_le_mul_of_nonneg_left _ (by norm_num)
      exact zpow_le_zpow_right₀ (by norm_num) less
    _ ≤ m' * 2 ^ e' := by
      apply mul_le_mul_of_nonneg_right _ (two_pow_pos e').le
      exact_mod_cast low'
  rcases lt_trichotomy e e' with less | rfl | more
  · rw [compare_lt_iff_lt.2 less, compare_lt_iff_lt.2 (smaller high low' less)]
    rfl
  · rw [compare_eq_iff_eq.2 rfl]
    have pos := two_pow_pos e
    rcases lt_trichotomy m m' with less | rfl | more
    · rw [compare_lt_iff_lt.2 less, compare_lt_iff_lt.2 (mul_lt_mul_of_pos_right (by exact_mod_cast less) pos)]
      rfl
    · rw [compare_eq_iff_eq.2 rfl, compare_eq_iff_eq.2 rfl]
      rfl
    · rw [compare_gt_iff_gt.2 more, compare_gt_iff_gt.2 (mul_lt_mul_of_pos_right (by exact_mod_cast more) pos)]
      rfl
  · rw [compare_gt_iff_gt.2 more, compare_gt_iff_gt.2 (smaller high' low more)]
    rfl

theorem value_positive {m : Nat} {e : Int} (pos : 0 < m) :
    value (.finite .positive m e pos) = m * 2 ^ e ∧ 0 < value (.finite .positive m e pos) := by
  have same : value (.finite .positive m e pos) = m * 2 ^ e := by simp [value, Sign.apply]
  rw [same]
  exact ⟨rfl, mul_pos (by exact_mod_cast pos) (two_pow_pos e)⟩

theorem value_negative {m : Nat} {e : Int} (pos : 0 < m) :
    value (.finite .negative m e pos) = -(m * 2 ^ e) ∧ value (.finite .negative m e pos) < 0 := by
  have same : value (.finite .negative m e pos) = -(m * 2 ^ e) := by simp [value, Sign.apply]
  rw [same]
  exact ⟨rfl, neg_neg_of_pos (mul_pos (by exact_mod_cast pos) (two_pow_pos e))⟩

theorem compare_neg (a b : ℚ) : compare (-a) (-b) = (compare a b).swap := by
  rcases lt_trichotomy a b with less | rfl | more
  · rw [compare_lt_iff_lt.2 less, compare_gt_iff_gt.2 (neg_lt_neg less)]
    rfl
  · rw [compare_eq_iff_eq.2 rfl, compare_eq_iff_eq.2 rfl]
    rfl
  · rw [compare_gt_iff_gt.2 more, compare_lt_iff_lt.2 (neg_lt_neg more)]
    rfl

/-- Settled numbers compare as their values. -/
theorem compare_settled {f g : UnpackedFloat} (hf : Settled f) (hg : Settled g) :
    f.compare g = some (compare (value f) (value g)) := by
  have less {a b : ℚ} (h : a < b) : some Ordering.lt = some (compare a b) := by rw [compare_lt_iff_lt.2 h]
  have more {a b : ℚ} (h : b < a) : some Ordering.gt = some (compare a b) := by rw [compare_gt_iff_gt.2 h]
  cases f with
  | infinity | notANumber => cases hf
  | zero s =>
    cases g with
    | infinity | notANumber => cases hg
    | zero => exact congrArg some (compare_eq_iff_eq.2 rfl).symm
    | finite t m' e' pos' =>
      cases t with
      | positive => exact less (value_positive pos').2
      | negative => exact more (value_negative pos').2
  | finite s m e pos =>
    cases g with
    | infinity | notANumber => cases hg
    | zero =>
      cases s with
      | positive => exact more (value_positive pos).2
      | negative => exact less (value_negative pos).2
    | finite t m' e' pos' =>
      obtain ⟨low, high, -⟩ := hf
      obtain ⟨low', high', -⟩ := hg
      have magnitudes : (compare e e').then (compare m m') = compare ((m : ℚ) * 2 ^ e) (m' * 2 ^ e') :=
        compare_scaled low high low' high'
      cases s with
      | positive =>
        cases t with
        | positive =>
          rw [(value_positive pos).1, (value_positive pos').1, ← magnitudes]
          rfl
        | negative => exact more ((value_negative pos').2.trans (value_positive pos).2)
      | negative =>
        cases t with
        | positive => exact less ((value_negative pos).2.trans (value_positive pos').2)
        | negative =>
          rw [(value_negative pos).1, (value_negative pos').1, compare_neg, ← magnitudes]
          rfl

variable {x y : Float} {a b : Int}

theorem IsInt.lt_iff (hx : IsInt x a) (hy : IsInt y b) : x < y ↔ a < b := by
  obtain ⟨settled, same⟩ := hx.settled
  obtain ⟨settled', same'⟩ := hy.settled
  calc x < y ↔ x.toModel < y.toModel := decide_eq_true_iff
    _ ↔ (x.toModel.unpack.compare y.toModel.unpack == some .lt) = true := Iff.rfl
    _ ↔ a < b := by
      rw [compare_settled settled settled', same, same', beq_iff_eq, Option.some.injEq, compare_lt_iff_lt, Int.cast_lt]

theorem IsInt.le_iff (hx : IsInt x a) (hy : IsInt y b) : x ≤ y ↔ a ≤ b := by
  obtain ⟨settled, same⟩ := hx.settled
  obtain ⟨settled', same'⟩ := hy.settled
  calc x ≤ y ↔ x.toModel ≤ y.toModel := decide_eq_true_iff
    _ ↔ (x.toModel.unpack.compare y.toModel.unpack).any (·.isLE) = true := Iff.rfl
    _ ↔ a ≤ b := by
      rw [compare_settled settled settled', same, same', Option.any_some, Std.LawfulBCmp.isLE_iff_le, Int.cast_le]

theorem IsInt.beq_iff (hx : IsInt x a) (hy : IsInt y b) : (x == y) = true ↔ a = b := by
  obtain ⟨settled, same⟩ := hx.settled
  obtain ⟨settled', same'⟩ := hy.settled
  calc (x == y) = true ↔ (x.toModel.unpack.compare y.toModel.unpack == some .eq) = true := Iff.rfl
    _ ↔ a = b := by
      rw [compare_settled settled settled', same, same', beq_iff_eq, Option.some.injEq, compare_eq_iff_eq, Int.cast_inj]

theorem isInt_zero : IsInt 0.0 0 := by constructor <;> decide +kernel

/-- What equals zero is a zero. -/
theorem isInt_of_beq_zero (equal : (x == 0.0) = true) : IsInt x 0 := by
  have compared : (UnpackedFloat.unpack .binary64 x.toBits.toBitVec).compare
      (UnpackedFloat.unpack .binary64 (0.0 : Float).toBits.toBitVec) = some .eq := beq_iff_eq.1 equal
  obtain ⟨fields, left, right, -⟩ := fields?_eq_of_compare compared
  have leftFields := fields?_unpack left
  have rightFields := fields?_unpack right
  rw [← exponentField_eq, ← fractionField_eq] at leftFields rightFields
  obtain ⟨exponent, fraction⟩ := Prod.mk.inj (leftFields.symm.trans rightFields)
  have zero : IsZero x := ⟨exponent.trans (by decide +kernel), fraction.trans (by decide +kernel)⟩
  refine ⟨?_, truncate_of_isZero zero⟩
  simp only [isIntegral, isFinite, magnitude, zero.1, zero.2, Magnitude.isWhole, if_pos, Nat.zero_mod, BEq.rfl,
    Bool.or_true, Bool.and_true]
  rfl

/-! ## Sums -/

/-- A natural of at most 53 bits is some mantissa of 53 bits, scaled. -/
theorem exists_mantissa {k : Nat} (pos : 1 ≤ k) (short : k ≤ 2 ^ 53) :
    ∃ (m : Nat) (e : Int), 2 ^ 52 ≤ m ∧ m < 2 ^ 53 ∧ -1074 ≤ e ∧ e ≤ 971 ∧ (m : ℚ) * 2 ^ e = k := by
  by_cases top : k = 2 ^ 53
  · refine ⟨2 ^ 52, 1, by decide, by decide, by decide, by decide, ?_⟩
    rw [top]
    norm_num
  · have low : 2 ^ k.log2 ≤ k := Nat.log2_self_le (by omega)
    have high : k < 2 ^ (k.log2 + 1) := Nat.lt_log2_self
    have bits : k.log2 ≤ 52 := by
      have : k.log2 < 53 := (Nat.log2_lt (by omega)).2 (by omega)
      omega
    generalize k.log2 = n at low high bits
    obtain ⟨low', high'⟩ := scaled_bounds low high bits
    refine ⟨k * 2 ^ (52 - n), -(52 - n : Nat), low', high', by omega, by omega, ?_⟩
    rw [zpow_neg, zpow_natCast]
    push_cast
    field_simp

theorem log2_shifted {n : Nat} (some' : n ≠ 0) (shift : Nat) : (n * 2 ^ shift).log2 = n.log2 + shift := by
  rw [Nat.log2_eq_iff (Nat.mul_ne_zero some' (Nat.two_pow_pos shift).ne'), Nat.pow_add, Nat.add_right_comm, Nat.pow_add]
  constructor
  · exact Nat.mul_le_mul_right _ (Nat.log2_self_le some')
  · exact Nat.mul_lt_mul_of_pos_right Nat.lt_log2_self (Nat.two_pow_pos shift)

/-- A natural of at most 53 bits is rounded to itself, whatever mantissa and exponent it has. -/
theorem round_exact {n k : Nat} {e : Int} (s : Sign) (pos : 1 ≤ k) (short : k ≤ 2 ^ 53)
    (scaled : (n : ℚ) * 2 ^ e = k) : Settled (UnpackedFloat.round .binary64 s n e) ∧
      value (UnpackedFloat.round .binary64 s n e) = s.apply k := by
  obtain ⟨m, e', low, high, least, greatest, same⟩ := exists_mantissa pos short
  have rounded (h : 0 < m) : UnpackedFloat.round .binary64 s n e = .finite s m e' h := by
    rw [← same] at scaled
    by_cases below : e ≤ e'
    · -- the mantissa has zeros at its end
      obtain ⟨shift, rfl⟩ : ∃ shift : Nat, e = e' - shift := ⟨(e' - e).toNat, by omega⟩
      have shifted : n = m * 2 ^ shift := by
        rw [zpow_sub₀ (by norm_num), zpow_natCast, mul_div_assoc', div_eq_iff (by positivity), mul_right_comm] at scaled
        exact_mod_cast mul_right_cancel₀ (two_pow_pos e').ne' scaled
      subst shifted
      have target : Format.binary64.targetExponent (totalExponent (m * 2 ^ shift) (e' - shift)) = e' := by
        simp only [Format.targetExponent, totalExponent, log2_mul_pow low high, Format.mantissaBits, Format.minExponent]
        omega
      have amount : (e' - shift - e').toNat = 0 := by omega
      simp only [UnpackedFloat.round, target, decreaseExponent, amount, Nat.shiftLeft_zero, Int.natCast_zero, Int.sub_zero]
      exact roundWithAccuracy_scaled low high shift least s
    · -- the mantissa is too short
      obtain ⟨shift, rfl⟩ : ∃ shift : Nat, e = e' + shift := ⟨(e - e').toNat, by omega⟩
      have shifted : m = n * 2 ^ shift := by
        rw [zpow_add₀ (by norm_num), zpow_natCast, mul_comm (2 ^ e' : ℚ), ← mul_assoc] at scaled
        exact_mod_cast (mul_right_cancel₀ (two_pow_pos e').ne' scaled).symm
      have log := log2_mul_pow low high 0
      have some' : n ≠ 0 := by
        rintro rfl
        omega
      rw [Nat.pow_zero, Nat.mul_one, shifted, log2_shifted some'] at log
      have target : Format.binary64.targetExponent (totalExponent n (e' + shift)) = e' := by
        simp only [Format.targetExponent, totalExponent, Format.mantissaBits, Format.minExponent]
        omega
      have amount : (e' + shift - e').toNat = shift := by omega
      have exact' := roundWithAccuracy_scaled low high 0 least s
      rw [Nat.pow_zero, Nat.mul_one, Int.natCast_zero, Int.sub_zero] at exact'
      simp only [UnpackedFloat.round, target, decreaseExponent, amount, Nat.shiftLeft_eq, ← shifted, Int.add_sub_cancel]
      exact exact'
  rw [rounded (by omega)]
  refine ⟨⟨low, high, least, greatest⟩, ?_⟩
  rw [value]
  cases s <;> simp only [Sign.apply] <;> push_cast <;> rw [← same]
  ring

/-- An integer of at most 53 bits is rounded to itself. -/
theorem normalize_exact {z : Int} {m e : Int} (short : z.natAbs ≤ 2 ^ 53) (scaled : (m : ℚ) * 2 ^ e = z) :
    Settled (UnpackedFloat.normalize .binary64 m e .positive) ∧
      value (UnpackedFloat.normalize .binary64 m e .positive) = z := by
  have pos := two_pow_pos e
  rcases lt_trichotomy m 0 with less | rfl | more
  · have below : z < 0 := by
      have : (m : ℚ) * 2 ^ e < 0 := mul_neg_of_neg_of_pos (by exact_mod_cast less) pos
      rw [scaled] at this
      exact_mod_cast this
    obtain ⟨n, rfl⟩ : ∃ n : Nat, m = -n := ⟨(-m).toNat, by omega⟩
    obtain ⟨k, rfl⟩ : ∃ k : Nat, z = -k := ⟨(-z).toNat, by omega⟩
    have compared : compare (-n : Int) 0 = .lt := Int.compare_eq_lt.2 less
    have rounded := round_exact (n := n) (k := k) (e := e) .negative (by omega) (by omega) (by
      push_cast at scaled
      linarith)
    simpa only [UnpackedFloat.normalize, compared, neg_neg, Int.toNat_natCast, Sign.apply] using rounded
  · have zero : z = 0 := by
      rw [Int.cast_zero, zero_mul] at scaled
      exact_mod_cast scaled.symm
    subst zero
    exact ⟨trivial, Int.cast_zero.symm⟩
  · have above : 0 < z := by
      have : 0 < (m : ℚ) * 2 ^ e := mul_pos (by exact_mod_cast more) pos
      rw [scaled] at this
      exact_mod_cast this
    obtain ⟨n, rfl⟩ := Int.eq_ofNat_of_zero_le more.le
    obtain ⟨k, rfl⟩ := Int.eq_ofNat_of_zero_le above.le
    have compared : compare (n : Int) 0 = .gt := Int.compare_eq_gt.2 more
    have rounded := round_exact (n := n) (k := k) (e := e) .positive (by omega) (by omega) (by exact_mod_cast scaled)
    simpa only [UnpackedFloat.normalize, compared, Int.toNat_natCast, Sign.apply] using rounded

/-- A mantissa with a smaller exponent. -/
theorem decreaseExponent_value {m : Nat} {e e' : Int} (s : Sign) (less : e' ≤ e) :
    (s.apply (decreaseExponent m e e').1 : ℚ) * 2 ^ e' = s.apply m * 2 ^ e := by
  obtain ⟨shift, rfl⟩ : ∃ shift : Nat, e = e' + shift := ⟨(e - e').toNat, by omega⟩
  have amount : (e' + shift - e').toNat = shift := by omega
  simp only [decreaseExponent, amount, Nat.shiftLeft_eq]
  rw [zpow_add₀ (by norm_num), zpow_natCast]
  cases s <;> simp only [Sign.apply] <;> push_cast <;> ring

theorem add_exact {f g : UnpackedFloat} {z : Int} (hf : Settled f) (hg : Settled g) (short : z.natAbs ≤ 2 ^ 53)
    (sum : value f + value g = z) : Settled (UnpackedFloat.add .binary64 f g) ∧
      value (UnpackedFloat.add .binary64 f g) = z := by
  cases f with
  | infinity | notANumber => cases hf
  | zero s =>
    cases g with
    | infinity | notANumber => cases hg
    | zero t => cases s <;> cases t <;> exact ⟨trivial, by rw [← sum]; exact (add_zero (0 : ℚ)).symm⟩
    | finite t m e pos => exact ⟨hg, by rw [← sum]; exact (zero_add _).symm⟩
  | finite s m e pos =>
    cases g with
    | infinity | notANumber => cases hg
    | zero t => exact ⟨hf, by rw [← sum]; exact (add_zero _).symm⟩
    | finite t m' e' pos' =>
      apply normalize_exact short
      rw [← sum, value, value, ← decreaseExponent_value s (min_le_left e e'),
        ← decreaseExponent_value t (min_le_right e e'), ← add_mul, ← Int.cast_add]
      rfl

/-- The sum of two integers is exact if it has at most 53 bits. -/
theorem IsInt.add (hx : IsInt x a) (hy : IsInt y b) (short : (a + b).natAbs ≤ 2 ^ 53) : IsInt (x + y) (a + b) := by
  obtain ⟨settled, same⟩ := hx.settled
  obtain ⟨settled', same'⟩ := hy.settled
  obtain ⟨settled'', same''⟩ := add_exact (z := a + b) settled settled' short (by rw [same, same', Int.cast_add])
  exact isInt_pack settled'' same''

end ScriptEngine.Number
