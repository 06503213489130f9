import ScriptEngine.Proofs.Number.Sign

/-!
# Natural numbers among the numbers

The naturals up to `2 ^ 53` are numbers of the language exactly (`integral_ofNat`, `truncate_ofNat`), and
an integral number that is at least 1 is determined by its integer (`eq_of_truncate_eq`). Two numbers are
equal if they are the same or both zero (`beq_iff`).
-/

namespace ScriptEngine.Number

open Float.Model (UnpackedFloat Format totalExponent)
open Float.Model.UnpackedFloat

/-! ## Fields -/

theorem exponentField_eq (x : Float) :
    exponentField x = (@unpackExponent .binary64 x.toBits.toBitVec).toNat := by
  have field : (@unpackExponent .binary64 x.toBits.toBitVec).toNat =
      x.toBits.toNat / 2 ^ 52 % 2 ^ 11 := by
    simp [unpackExponent, BitVec.extractLsb, Nat.shiftRight_eq_div_pow]
  rw [field, exponentField, UInt64.toNat_and, UInt64.toNat_shiftRight]
  show (x.toBits.toNat >>> 52) &&& (2 ^ 11 - 1) = _
  rw [Nat.and_two_pow_sub_one_eq_mod, Nat.shiftRight_eq_div_pow]

theorem fractionField_eq (x : Float) :
    fractionField x = (@unpackMantissa .binary64 x.toBits.toBitVec).toNat := by
  have field : (@unpackMantissa .binary64 x.toBits.toBitVec).toNat = x.toBits.toNat % 2 ^ 52 := by
    simp [unpackMantissa, BitVec.extractLsb]
  rw [field, fractionField, UInt64.toNat_and]
  show x.toBits.toNat &&& (2 ^ 52 - 1) = _
  rw [Nat.and_two_pow_sub_one_eq_mod]

theorem fractionField_lt (x : Float) : fractionField x < 2 ^ 52 :=
  fractionField_eq x ▸ (@unpackMantissa .binary64 x.toBits.toBitVec).isLt

/-- A number is determined by its bits. -/
theorem eq_of_toBits {x y : Float} (same : x.toBits = y.toBits) : x = y := by
  obtain ⟨⟨bits, _⟩⟩ := x
  obtain ⟨⟨bits', _⟩⟩ := y
  cases (same : bits = bits')
  rfl

/-- A number is determined by its sign and its two fields. -/
theorem eq_of_fields {x y : Float} (sign : isNegative x = isNegative y)
    (exponent : exponentField x = exponentField y) (fraction : fractionField x = fractionField y) :
    x = y := by
  rw [isNegative_iff, isNegative_iff] at sign
  rw [exponentField_eq, exponentField_eq] at exponent
  rw [fractionField_eq, fractionField_eq] at fraction
  have same := eq_of_parts sign (BitVec.eq_of_toNat_eq exponent) (BitVec.eq_of_toNat_eq fraction)
  exact eq_of_toBits (UInt64.toBitVec_inj.1 same)

/-! ## Integral numbers -/

/-- The mantissa of a number that is not tiny has 53 bits. -/
theorem magnitude_of_exponent {x : Float} (some' : exponentField x ≠ 0) :
    (magnitude x).mantissa = 2 ^ 52 + fractionField x ∧
      (magnitude x).exponent = exponentField x - 1075 := by
  simp only [magnitude, if_neg some']
  constructor <;> trivial

/-- The integer of an integral number that is at least 1, as its mantissa scaled. -/
theorem scaled_of_integral {x : Float} {n : Nat} (integral : isIntegral x = true) (pos : 1 ≤ n)
    (whole : truncate x = n) :
    isNegative x = false ∧ exponentField x ≠ 0 ∧
      n * 2 ^ (1075 - exponentField x) = (2 ^ 52 + fractionField x) * 2 ^ (exponentField x - 1075) := by
  have plus : isNegative x = false := by
    cases negative : isNegative x with
    | false => rfl
    | true =>
      rw [truncate, negative, if_pos rfl] at whole
      omega
  rw [truncate, plus, if_neg Bool.false_ne_true] at whole
  have whole : (magnitude x).whole = n := by exact_mod_cast whole
  have fractionless : (magnitude x).isWhole = true := by
    rw [isIntegral, Bool.and_eq_true] at integral
    exact integral.2
  have fraction := fractionField_lt x
  by_cases tiny : exponentField x = 0
  · -- a number with the least exponent is below 1
    have small : (magnitude x).whole = 0 := by
      simp only [magnitude, if_pos tiny, Magnitude.whole]
      rw [if_neg (by decide)]
      have deep : 52 ≤ (- -1074 : Int).toNat := by decide
      generalize (- -1074 : Int).toNat = depth at deep ⊢
      exact Nat.div_eq_of_lt (Nat.lt_of_lt_of_le fraction (Nat.pow_le_pow_right (by decide) deep))
    omega
  · refine ⟨plus, tiny, ?_⟩
    obtain ⟨mantissa, exponent⟩ := magnitude_of_exponent tiny
    rw [Magnitude.whole, mantissa, exponent] at whole
    rw [Magnitude.isWhole, mantissa, exponent] at fractionless
    by_cases high : 1075 ≤ exponentField x
    · rw [if_pos (by omega)] at whole
      rw [← whole, show 1075 - exponentField x = 0 by omega, Nat.pow_zero, Nat.mul_one,
        show ((exponentField x : Int) - 1075).toNat = exponentField x - 1075 by omega]
      rfl
    · rw [if_neg (by omega)] at whole
      have amount : (-((exponentField x : Int) - 1075)).toNat = 1075 - exponentField x := by omega
      rw [amount] at whole fractionless
      have divides : (2 ^ 52 + fractionField x) % 2 ^ (1075 - exponentField x) = 0 := by
        rw [Bool.or_eq_true, decide_eq_true_iff] at fractionless
        rcases fractionless with high' | divides
        · omega
        · exact beq_iff_eq.1 divides
      rw [← whole, show exponentField x - 1075 = 0 by omega, Nat.pow_zero, Nat.mul_one]
      exact Nat.div_mul_cancel (Nat.dvd_of_mod_eq_zero divides)

/-- Mantissas of 53 bits that agree when scaled agree. -/
theorem scale_unique {m m' e e' n : Nat} (low : 2 ^ 52 ≤ m) (high : m < 2 ^ 53) (low' : 2 ^ 52 ≤ m')
    (high' : m' < 2 ^ 53) (first : n * 2 ^ (1075 - e) = m * 2 ^ (e - 1075))
    (second : n * 2 ^ (1075 - e') = m' * 2 ^ (e' - 1075)) : e ≤ e' := by
  by_contra less
  obtain ⟨k, rfl⟩ : ∃ k, e = e' + 1 + k := Nat.exists_eq_add_of_le (Nat.lt_of_not_le less)
  -- both sides as multiples of the same power of two
  have cross : m * 2 ^ (e' + 1 + k - 1075) * 2 ^ (1075 - e') =
      m' * 2 ^ (e' - 1075) * 2 ^ (1075 - (e' + 1 + k)) := by
    rw [← first, ← second]
    ring
  have powers : 2 ^ (e' + 1 + k - 1075) * 2 ^ (1075 - e') =
      2 ^ (1 + k) * (2 ^ (e' - 1075) * 2 ^ (1075 - (e' + 1 + k))) := by
    have sum : e' + 1 + k - 1075 + (1075 - e') = 1 + k + (e' - 1075 + (1075 - (e' + 1 + k))) := by
      omega
    rw [← Nat.pow_add, ← Nat.pow_add, ← Nat.pow_add, sum]
  have pos : 0 < 2 ^ (e' - 1075) * 2 ^ (1075 - (e' + 1 + k)) := by positivity
  have reduced : m * 2 ^ (1 + k) = m' := by
    apply Nat.eq_of_mul_eq_mul_right pos
    calc m * 2 ^ (1 + k) * (2 ^ (e' - 1075) * 2 ^ (1075 - (e' + 1 + k)))
        = m * (2 ^ (1 + k) * (2 ^ (e' - 1075) * 2 ^ (1075 - (e' + 1 + k)))) := by ring
      _ = m * (2 ^ (e' + 1 + k - 1075) * 2 ^ (1075 - e')) := by rw [powers]
      _ = m * 2 ^ (e' + 1 + k - 1075) * 2 ^ (1075 - e') := by ring
      _ = m' * 2 ^ (e' - 1075) * 2 ^ (1075 - (e' + 1 + k)) := cross
      _ = m' * (2 ^ (e' - 1075) * 2 ^ (1075 - (e' + 1 + k))) := by ring
  have double : m * 2 ≤ m * 2 ^ (1 + k) := by
    apply Nat.mul_le_mul_left
    calc 2 = 2 ^ 1 := rfl
      _ ≤ 2 ^ (1 + k) := Nat.pow_le_pow_right (by decide) (by omega)
  omega

/-- An integral number that is at least 1 is determined by its integer. -/
theorem eq_of_truncate_eq {x y : Float} {n : Nat} (pos : 1 ≤ n) (hx : isIntegral x = true)
    (hy : isIntegral y = true) (whole : truncate x = n) (whole' : truncate y = n) : x = y := by
  obtain ⟨plus, -, scaled⟩ := scaled_of_integral hx pos whole
  obtain ⟨plus', -, scaled'⟩ := scaled_of_integral hy pos whole'
  have fraction := fractionField_lt x
  have fraction' := fractionField_lt y
  have exponent : exponentField x = exponentField y := Nat.le_antisymm
    (scale_unique (by omega) (by omega) (by omega) (by omega) scaled scaled')
    (scale_unique (by omega) (by omega) (by omega) (by omega) scaled' scaled)
  refine eq_of_fields (plus.trans plus'.symm) exponent ?_
  rw [exponent, scaled'] at scaled
  have := Nat.eq_of_mul_eq_mul_right (Nat.two_pow_pos _) scaled
  omega

/-- The integer of a number is at most `2 ^ 53`, or even. -/
theorem even_of_large {x : Float} {n : Nat} (integral : isIntegral x = true) (whole : truncate x = n)
    (large : 2 ^ 53 < n) : n % 2 = 0 := by
  obtain ⟨-, -, scaled⟩ := scaled_of_integral integral (by omega) whole
  have fraction := fractionField_lt x
  by_cases high : exponentField x ≤ 1075
  · -- no scaling up: the integer is at most the mantissa
    rw [show exponentField x - 1075 = 0 by omega, Nat.pow_zero, Nat.mul_one] at scaled
    have := Nat.le_mul_of_pos_right n (Nat.two_pow_pos (1075 - exponentField x))
    omega
  · obtain ⟨k, step⟩ := Nat.exists_eq_add_of_lt (Nat.lt_of_not_le high)
    rw [show 1075 - exponentField x = 0 by omega, Nat.pow_zero, Nat.mul_one,
      show exponentField x - 1075 = k + 1 by omega] at scaled
    rw [scaled, Nat.pow_succ 2 k, ← Nat.mul_assoc]
    exact Nat.mul_mod_left _ 2

/-! ## Rounding without loss -/

variable {m : Nat} {e : Int}

theorem log2_mul_pow (low : 2 ^ 52 ≤ m) (high : m < 2 ^ 53) (shift : Nat) :
    (m * 2 ^ shift).log2 = 52 + shift := by
  have pos : m * 2 ^ shift ≠ 0 := Nat.mul_ne_zero (by omega) (Nat.two_pow_pos shift).ne'
  rw [Nat.log2_eq_iff pos, Nat.pow_add, Nat.add_right_comm, Nat.pow_add]
  constructor
  · exact Nat.mul_le_mul_right _ low
  · exact Nat.mul_lt_mul_of_pos_right high (Nat.two_pow_pos shift)

/-- Dropping bits that are zero loses nothing. -/
theorem shiftRight_exact (m shift : Nat) :
    ExtendedMantissa.ofMantissaAndAccuracy (m * 2 ^ shift) .exact >>> shift =
      ExtendedMantissa.ofMantissaAndAccuracy m .exact := by
  induction shift generalizing m with
  | zero => simp only [Nat.pow_zero, Nat.mul_one]; rfl
  | succ shift ih =>
    show ExtendedMantissa.shiftRightOne
      (ExtendedMantissa.ofMantissaAndAccuracy (m * 2 ^ (shift + 1)) .exact >>> shift) = _
    rw [Nat.pow_succ', ← Nat.mul_assoc, ih]
    simp [ExtendedMantissa.shiftRightOne, ExtendedMantissa.ofMantissaAndAccuracy]

/-- The exponent that a mantissa of 53 bits is shifted to is the one that it has. -/
theorem shiftToTargetExponent_scaled (low : 2 ^ 52 ≤ m) (high : m < 2 ^ 53) (shift : Nat)
    (least : -1074 ≤ e) :
    shiftToTargetExponent .binary64 (m * 2 ^ shift) (e - shift) .exact =
      (ExtendedMantissa.ofMantissaAndAccuracy m .exact, e) := by
  have target : Format.binary64.targetExponent (totalExponent (m * 2 ^ shift) (e - shift)) = e := by
    simp only [Format.targetExponent, totalExponent, log2_mul_pow low high, Format.mantissaBits,
      Format.minExponent]
    omega
  rw [shiftToTargetExponent, target]
  simp only [shiftToExponent]
  rw [show (e - (e - shift)).toNat = shift by omega, shiftRight_exact, Int.sub_add_cancel]

theorem roundWithAccuracy_scaled (low : 2 ^ 52 ≤ m) (high : m < 2 ^ 53) (shift : Nat)
    (least : -1074 ≤ e) (sign : Sign) :
    roundWithAccuracy .binary64 sign (m * 2 ^ shift) (e - shift) .exact =
      .finite sign m e (by omega) := by
  have again := shiftToTargetExponent_scaled low high 0 least
  rw [Nat.pow_zero, Nat.mul_one, Int.natCast_zero, Int.sub_zero] at again
  have kept : (ExtendedMantissa.ofMantissaAndAccuracy m .exact).roundedMantissa = m := rfl
  simp only [roundWithAccuracy, shiftToTargetExponent_scaled low high shift least, kept, again]
  exact dif_neg (show m ≠ 0 by omega)

/-- A natural of at most 53 bits, scaled to a mantissa of 53 bits. -/
theorem scaled_bounds {n k : Nat} (low : 2 ^ k ≤ n) (high : n < 2 ^ (k + 1)) (short : k ≤ 52) :
    2 ^ 52 ≤ n * 2 ^ (52 - k) ∧ n * 2 ^ (52 - k) < 2 ^ 53 := by
  constructor
  · calc 2 ^ 52 = 2 ^ k * 2 ^ (52 - k) := by rw [← Nat.pow_add, Nat.add_sub_cancel' short]
      _ ≤ n * 2 ^ (52 - k) := Nat.mul_le_mul_right _ low
  · calc n * 2 ^ (52 - k) < 2 ^ (k + 1) * 2 ^ (52 - k) :=
          Nat.mul_lt_mul_of_pos_right high (Nat.two_pow_pos _)
      _ = 2 ^ 53 := by rw [← Nat.pow_add, show k + 1 + (52 - k) = 53 by omega]

/-- A natural of at most 53 bits is rounded to itself. -/
theorem round_natural {n k : Nat} (low : 2 ^ k ≤ n) (high : n < 2 ^ (k + 1)) (short : k ≤ 52)
    (pos : 0 < n * 2 ^ (52 - k)) :
    UnpackedFloat.round .binary64 .positive n 0 =
      .finite .positive (n * 2 ^ (52 - k)) (k - 52) pos := by
  have log : n.log2 = k := (Nat.log2_eq_iff (by have := Nat.two_pow_pos k; omega)).2 ⟨low, high⟩
  have target : Format.binary64.targetExponent (totalExponent n 0) = (k : Int) - 52 := by
    simp only [Format.targetExponent, totalExponent, log, Format.mantissaBits, Format.minExponent]
    omega
  have amount : (0 - ((k : Int) - 52)).toNat = 52 - k := by omega
  have exponent : (0 : Int) - ↑(52 - k) = k - 52 := by omega
  simp only [UnpackedFloat.round, target, decreaseExponent, amount, exponent, Nat.shiftLeft_eq]
  obtain ⟨low', high'⟩ := scaled_bounds low high short
  have exact' := roundWithAccuracy_scaled low' high' 0 (show -1074 ≤ (k : Int) - 52 by omega) .positive
  rwa [Nat.pow_zero, Nat.mul_one, Int.natCast_zero, Int.sub_zero] at exact'

/-! ## Packing -/

theorem pack_normal (low : 2 ^ 52 ≤ m) (high : m < 2 ^ 53) (least : -1074 ≤ e) (greatest : e ≤ 971)
    (pos : 0 < m) :
    UnpackedFloat.pack .binary64 (.finite .positive m e pos) =
      packComponents .binary64 .positive (.ofNat 11 (e + 1075).toNat) (.ofNat 52 m) := by
  have log := log2_mul_pow low high 0
  rw [Nat.pow_zero, Nat.mul_one] at log
  have biased : (e + Format.binary64.exponentBias + Format.binary64.mantissaBitsWithoutImplicit).toNat =
      (e + 1075).toNat := by
    show (e + 1023 + 52).toNat = _
    omega
  have within : ¬2 ^ Format.binary64.exponentBits ≤ (e + 1075).toNat + 1 := by
    show ¬2048 ≤ _
    omega
  simp only [UnpackedFloat.pack, biased, if_neg within, log]
  exact if_pos rfl

/-- The number with a mantissa of 53 bits. -/
def normal (m : Nat) (e : Int) (pos : 0 < m) : Float :=
  .ofModel (.pack (.finite .positive m e pos))

section

variable (low : 2 ^ 52 ≤ m) (high : m < 2 ^ 53) (least : -1074 ≤ e) (greatest : e ≤ 971)
  (pos : 0 < m)
include low high least greatest

theorem toBits_normal :
    (normal m e pos).toBits.toBitVec =
      packComponents .binary64 .positive (.ofNat 11 (e + 1075).toNat) (.ofNat 52 m) :=
  pack_normal low high least greatest pos

theorem exponentField_normal : exponentField (normal m e pos) = (e + 1075).toNat := by
  rw [exponentField_eq, toBits_normal low high least greatest, unpackExponent_packComponents,
    BitVec.toNat_ofNat]
  show _ % 2048 = _
  omega

theorem fractionField_normal : fractionField (normal m e pos) = m - 2 ^ 52 := by
  rw [fractionField_eq, toBits_normal low high least greatest, unpackMantissa_packComponents,
    BitVec.toNat_ofNat]
  show _ % 2 ^ 52 = _
  omega

theorem magnitude_normal :
    (magnitude (normal m e pos)).mantissa = m ∧ (magnitude (normal m e pos)).exponent = e := by
  have exponent := exponentField_normal low high least greatest pos
  obtain ⟨mantissa, scale⟩ := magnitude_of_exponent (x := normal m e pos) (by omega)
  rw [fractionField_normal low high least greatest] at mantissa
  omega

theorem unpack_normal : (normal m e pos).toModel.unpack = .finite .positive m e pos := by
  show UnpackedFloat.unpack .binary64 (normal m e pos).toBits.toBitVec = _
  have exponent : (@unpackExponent .binary64 (normal m e pos).toBits.toBitVec).toNat =
      (e + 1075).toNat :=
    (exponentField_eq _).symm.trans (exponentField_normal low high least greatest pos)
  have fraction : (@unpackMantissa .binary64 (normal m e pos).toBits.toBitVec).toNat = m - 2 ^ 52 :=
    (fractionField_eq _).symm.trans (fractionField_normal low high least greatest pos)
  have sign : Sign.ofBitVec (@unpackSign .binary64 (normal m e pos).toBits.toBitVec) = .positive := by
    rw [unpackSign_eq, toBits_normal low high least greatest, msb_packComponents]
    rfl
  have whole : (1#1 ++ @unpackMantissa .binary64 (normal m e pos).toBits.toBitVec).toNat = m := by
    have small := (@unpackMantissa .binary64 (normal m e pos).toBits.toBitVec).isLt
    have implicit : (1#1).toNat <<< Format.binary64.mantissaBitsWithoutImplicit = 2 ^ 52 := rfl
    rw [BitVec.toNat_append, ← Nat.shiftLeft_add_eq_or_of_lt small, fraction, implicit]
    omega
  have finite' : @unpackExponent .binary64 (normal m e pos).toBits.toBitVec ≠
      -(BitVec.ofNat Format.binary64.exponentBits 1) := by
    intro top
    rw [top] at exponent
    have : (2047 : Nat) = (e + 1075).toNat := exponent
    omega
  have normal' : @unpackExponent .binary64 (normal m e pos).toBits.toBitVec ≠
      BitVec.ofNat Format.binary64.exponentBits 0 := by
    intro bottom
    rw [bottom] at exponent
    have : (0 : Nat) = (e + 1075).toNat := exponent
    omega
  have scale : ((e + 1075).toNat : Int) -
      (Format.binary64.exponentBias + Format.binary64.mantissaBitsWithoutImplicit) = e := by
    show ((e + 1075).toNat : Int) - (1023 + 52) = e
    omega
  simp only [UnpackedFloat.unpack, if_neg finite', if_neg normal', exponent, sign, whole, scale]

theorem normal_mul_one : normal m e pos * 1.0 = normal m e pos := by
  show Float.ofModel (.pack (mul .binary64 (normal m e pos).toModel.unpack
    (1.0 : Float).toModel.unpack)) = _
  have one : (1.0 : Float).toModel.unpack = .finite .positive (2 ^ 52) (-52) (by decide) := by
    rfl
  rw [unpack_normal low high least greatest, one]
  show Float.ofModel (.pack (roundWithAccuracy .binary64 .positive (m * 2 ^ 52) (e + -52) .exact)) = _
  rw [show e + -52 = e - (52 : Nat) from rfl, roundWithAccuracy_scaled low high 52 least]
  rfl

end

/-! ## Naturals -/

/-- A natural of at most 53 bits as a number. -/
theorem ofNat_eq_normal {n k : Nat} (low : 2 ^ k ≤ n) (high : n < 2 ^ (k + 1)) (short : k ≤ 52)
    (pos : 0 < n * 2 ^ (52 - k)) : Float.ofNat n = normal (n * 2 ^ (52 - k)) (k - 52) pos := by
  have small : n < 2 ^ 53 := Nat.lt_of_lt_of_le high (Nat.pow_le_pow_right (by decide) (by omega))
  obtain ⟨low', high'⟩ := scaled_bounds low high short
  have word : n.toUInt64.toFloat = normal (n * 2 ^ (52 - k)) (k - 52) pos := by
    show Float.ofModel (.pack (UnpackedFloat.normalize .binary64 (n.toUInt64.toNat : Int) 0 .positive)) = _
    have value : n.toUInt64.toNat = n := by
      show n % 2 ^ 64 = n
      omega
    have positive : compare (n : Int) 0 = .gt := by
      have := Nat.two_pow_pos k
      rw [Int.compare_eq_gt]
      omega
    simp only [value, UnpackedFloat.normalize, positive, Int.toNat_natCast,
      round_natural low high short pos]
    rfl
  calc Float.ofNat n = n.toUInt64.toFloat * 1.0 := by
        show Float.ofScientific n false 0 = _
        rw [Float.ofScientific, dif_pos ⟨small, by decide⟩]
        rfl
    _ = normal (n * 2 ^ (52 - k)) (k - 52) pos := by
        rw [word, normal_mul_one low' high' (by omega) (by omega)]

/-- The naturals up to `2 ^ 53` are numbers exactly. -/
theorem truncate_ofNat {n : Nat} (pos : 1 ≤ n) (short : n ≤ 2 ^ 53) :
    isIntegral (Float.ofNat n) = true ∧ truncate (Float.ofNat n) = n := by
  by_cases top : n = 2 ^ 53
  · subst top
    decide +kernel
  have low : 2 ^ n.log2 ≤ n := Nat.log2_self_le (by omega)
  have high : n < 2 ^ (n.log2 + 1) := Nat.lt_log2_self
  have bits : n.log2 ≤ 52 := by
    have : n.log2 < 53 := (Nat.log2_lt (by omega)).2 (by omega)
    omega
  generalize n.log2 = k at low high bits
  obtain ⟨low', high'⟩ := scaled_bounds low high bits
  have mantissaPos : 0 < n * 2 ^ (52 - k) := by omega
  obtain ⟨mantissa, exponent⟩ := magnitude_normal low' high' (e := k - 52) (by omega) (by omega) mantissaPos
  have field := exponentField_normal low' high' (e := k - 52) (by omega) (by omega) mantissaPos
  have plus := isNegative_ofNat n
  rw [ofNat_eq_normal low high bits mantissaPos] at plus ⊢
  rw [isIntegral, isFinite, field, truncate, plus, Magnitude.isWhole, Magnitude.whole, mantissa, exponent]
  have amount : (-((k : Int) - 52)).toNat = 52 - k := by omega
  constructor
  · rw [Bool.and_eq_true, Bool.or_eq_true, bne_iff_ne, beq_iff_eq, amount]
    constructor
    · omega
    · right
      exact Nat.mul_mod_left _ _
  · rw [if_neg Bool.false_ne_true]
    by_cases wide : k = 52
    · subst wide
      simp
    · rw [if_neg (by omega), amount]
      congr 1
      exact Nat.mul_div_cancel _ (Nat.two_pow_pos _)

/-! ## Equality of numbers -/

theorem isNaN_of_unpack {x : Float} (h : x.toModel.unpack = .notANumber) : isNaN x = true := by
  have h : UnpackedFloat.unpack .binary64 x.toBits.toBitVec = .notANumber := h
  rw [isNaN, exponentField_eq, fractionField_eq, Bool.and_eq_true, beq_iff_eq, bne_iff_ne]
  simp only [UnpackedFloat.unpack] at h
  split at h
  · rename_i top
    split at h
    · cases h
    · rename_i some'
      exact ⟨congrArg BitVec.toNat top, fun zero => some' (BitVec.eq_of_toNat_eq zero)⟩
  · split at h
    · split at h <;> cases h
    · cases h

/-- Whatever is not NaN equals itself. -/
theorem compare_self {f : UnpackedFloat} (number : f ≠ .notANumber) : f.compare f = some .eq := by
  cases f with
  | notANumber => exact absurd rfl number
  | infinity s => cases s <;> rfl
  | zero s => rfl
  | finite s m e _ => cases s <;> simp [UnpackedFloat.compare, Ordering.then]

theorem beq_self {x : Float} (number : isNaN x = false) : (x == x) = true := by
  have apart : x.toModel.unpack ≠ .notANumber := by
    intro none
    rw [isNaN_of_unpack none] at number
    cases number
  have compared := compare_self apart
  exact (beq_iff_eq (a := x.toModel.unpack.compare x.toModel.unpack)).2 compared

theorem unsigned_iff_unpack {b : BitVec 64} (number : UnpackedFloat.unpack .binary64 b ≠ .notANumber) :
    Unsigned (UnpackedFloat.unpack .binary64 b) ↔ b.msb = false := by
  constructor
  · intro plus
    cases sign : b.msb with
    | false => rfl
    | true =>
      have minus : Sign.ofBitVec (@unpackSign .binary64 b) = .negative := by
        rw [unpackSign_eq, sign]
        rfl
      have signed : ∀ {s : Sign}, s = .negative → ¬s = .positive := by
        rintro _ rfl ⟨⟩
      revert plus number
      simp only [UnpackedFloat.unpack]
      split
      · split
        · exact fun _ plus => absurd plus (signed minus)
        · exact fun number _ => absurd rfl number
      · split
        · split <;> exact fun _ plus => absurd plus (signed minus)
        · exact fun _ plus => absurd plus (signed minus)
  · exact unsigned_unpack

/-- A zero of either sign. -/
def IsZero (x : Float) : Prop := exponentField x = 0 ∧ fractionField x = 0

theorem isZero_iff_toBits (x : Float) :
    IsZero x ↔ x.toBits = 0 ∨ x.toBits = 0x8000000000000000 := by
  have plus : (Float.ofBits 0).toBits = 0 := by decide +kernel
  have minus : (Float.ofBits 0x8000000000000000).toBits = 0x8000000000000000 := by decide +kernel
  constructor
  · rintro ⟨exponent, fraction⟩
    cases sign : isNegative x with
    | false =>
      have zero : x = Float.ofBits 0 :=
        eq_of_fields (sign.trans (by decide +kernel)) (exponent.trans (by decide +kernel))
          (fraction.trans (by decide +kernel))
      exact .inl (zero ▸ plus)
    | true =>
      have zero : x = Float.ofBits 0x8000000000000000 :=
        eq_of_fields (sign.trans (by decide +kernel)) (exponent.trans (by decide +kernel))
          (fraction.trans (by decide +kernel))
      exact .inr (zero ▸ minus)
  · rintro (bits | bits) <;> rw [IsZero, exponentField, fractionField, bits] <;> decide

theorem truncate_of_isZero {x : Float} (zero : IsZero x) : truncate x = 0 := by
  have none : (magnitude x).whole = 0 := by
    simp only [magnitude, if_pos zero.1, zero.2, Magnitude.whole]
    rw [if_neg (by decide)]
    exact Nat.zero_div _
  rw [truncate, none]
  split <;> rfl

theorem isNaN_of_isIntegral {x : Float} (integral : isIntegral x = true) : isNaN x = false := by
  rw [isIntegral, Bool.and_eq_true, isFinite, bne_iff_ne] at integral
  rw [isNaN, beq_eq_false_iff_ne.2 integral.1, Bool.false_and]

/-- Numbers are equal if they are the same, or zeros. -/
theorem beq_iff {x y : Float} (number : isNaN x = false) :
    (x == y) = true ↔ x = y ∨ IsZero x ∧ IsZero y := by
  constructor
  · intro equal
    have compared : (UnpackedFloat.unpack .binary64 x.toBits.toBitVec).compare
        (UnpackedFloat.unpack .binary64 y.toBits.toBitVec) = some .eq := beq_iff_eq.1 equal
    obtain ⟨fields, left, right, same⟩ := fields?_eq_of_compare compared
    have leftFields := fields?_unpack left
    have rightFields := fields?_unpack right
    rw [← exponentField_eq, ← fractionField_eq] at leftFields rightFields
    obtain ⟨exponent, fraction⟩ := Prod.mk.inj (leftFields.symm.trans rightFields)
    rcases same with same | zero
    · left
      refine eq_of_fields ?_ exponent fraction
      have number : UnpackedFloat.unpack .binary64 x.toBits.toBitVec ≠ .notANumber := by
        intro none
        rw [none] at left
        cases left
      rw [isNegative_iff, isNegative_iff, Bool.eq_iff_iff, ← Bool.not_eq_false, ← Bool.not_eq_false,
        not_iff_not, ← unsigned_iff_unpack number, ← unsigned_iff_unpack (same ▸ number), same]
    · right
      obtain ⟨e, f⟩ := Prod.mk.inj (leftFields.symm.trans zero)
      exact ⟨⟨e, f⟩, exponent ▸ e, fraction ▸ f⟩
  · rintro (rfl | ⟨hx, hy⟩)
    · exact beq_self number
    · rw [isZero_iff_toBits] at hx hy
      show ((UnpackedFloat.unpack .binary64 x.toBits.toBitVec).compare
        (UnpackedFloat.unpack .binary64 y.toBits.toBitVec) == some .eq) = true
      rcases hx with hx | hx <;> rcases hy with hy | hy <;> rw [hx, hy] <;> decide +kernel

end ScriptEngine.Number
