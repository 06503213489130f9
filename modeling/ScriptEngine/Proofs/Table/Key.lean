import ScriptEngine.Table
import ScriptEngine.Proofs.Number.Natural

/-!
# When two values are the same key

Values that stand for keys are equal exactly if they stand for the same key (`beq_iff_ofValue`). The array
position of a value depends on its key only (`arrayIndex?_congr`), and two keys do not share a position
(`eq_of_arrayIndex?`). Every position below `2 ^ 53` is that of a key (`arrayIndex?_ofNat`), and the next
one is not (`arrayIndex?_ne`).
-/

namespace ScriptEngine

/-- Whether a value stands for a key: all but `nil`, NaN and multi-values do. -/
def Value.isKey : Value → Bool
  | .nil | .multi _ => false
  | .number n => !Number.isNaN n
  | _ => true

attribute [grind =] Value.isKey Key.ofValue

namespace Key

variable {a b : Value} {k : Key}

theorem ofValue_of_isKey (h : a.isKey = true) : ∃ k, ofValue a = .ok k := by
  cases a with
  | nil => cases h
  | multi => cases h
  | number n =>
    refine ⟨ofNumber n, if_neg ?_⟩
    rw [Value.isKey, Bool.not_eq_true'] at h
    exact Bool.not_eq_true _ ▸ h
  | _ => exact ⟨_, rfl⟩

theorem isKey_of_ofValue (h : ofValue a = .ok k) : a.isKey = true := by
  cases a with
  | nil => cases h
  | multi => cases h
  | number n =>
    cases nan : Number.isNaN n with
    | true => rw [ofValue, nan, if_pos rfl] at h; cases h
    | false => rw [Value.isKey, nan]; rfl
  | _ => rfl

/-- What stands for no key is refused as one. -/
theorem ofValue_of_not_isKey (h : a.isKey = false) : ∃ what, ofValue a = .error (.invalidKey what) := by
  cases a with
  | nil => exact ⟨_, rfl⟩
  | multi => exact ⟨_, rfl⟩
  | number n =>
    rw [Value.isKey, Bool.not_eq_false'] at h
    exact ⟨_, if_pos h⟩
  | _ => cases h

/-! ## Numbers -/

theorem ofValue_number {x : Float} (h : ofValue (.number x) = .ok k) :
    Number.isNaN x = false ∧ k = ofNumber x := by
  cases nan : Number.isNaN x with
  | true => rw [ofValue, nan, if_pos rfl] at h; cases h
  | false =>
    rw [ofValue, nan, if_neg Bool.false_ne_true] at h
    exact ⟨rfl, (Except.ok.inj h).symm⟩

theorem ofNumber_eq_iff {x y : Float} :
    ofNumber x = ofNumber y ↔ x = y ∨ Number.IsZero x ∧ Number.IsZero y := by
  rw [Number.isZero_iff_toBits, Number.isZero_iff_toBits, ofNumber, ofNumber, Key.number.injEq]
  constructor
  · intro same
    split at same <;> split at same <;> rename_i hx hy
    · exact .inr ⟨.inr hx, .inr hy⟩
    · exact .inr ⟨.inr hx, .inl same.symm⟩
    · exact .inr ⟨.inl same, .inr hy⟩
    · exact .inl (Number.eq_of_toBits same)
  · rintro (rfl | ⟨hx, hy⟩)
    · rfl
    · rcases hx with hx | hx <;> rcases hy with hy | hy <;> rw [hx, hy] <;> rfl

/-- Values that stand for keys are equal exactly if they stand for the same one. -/
theorem beq_iff_ofValue (ha : a.isKey = true) (hb : b.isKey = true) :
    (a == b) = true ↔ ofValue a = ofValue b := by
  show Value.equal a b = true ↔ _
  have number {x : Float} (h : (Value.number x).isKey = true) :
      Number.isNaN x = false ∧ ofValue (.number x) = .ok (ofNumber x) := by
    obtain ⟨k, found⟩ := ofValue_of_isKey h
    obtain ⟨some, rfl⟩ := ofValue_number found
    exact ⟨some, found⟩
  cases a with
  | nil => cases ha
  | multi => cases ha
  | number x =>
    obtain ⟨notNaN, key⟩ := number ha
    rw [key]
    cases b with
    | nil => cases hb
    | multi => cases hb
    | number y =>
      rw [(number hb).2, Except.ok.injEq, ofNumber_eq_iff]
      exact Number.beq_iff notNaN
    | _ => simp [Value.equal, ofValue, ofNumber]
  | _ =>
    cases b with
    | nil => cases hb
    | multi => cases hb
    | number y =>
      rw [(number hb).2]
      simp [Value.equal, ofValue, ofNumber]
    | _ => simp [Value.equal, ofValue]

/-- A key equals nothing that is not one. -/
theorem beq_of_not_isKey (ha : a.isKey = true) (hb : b.isKey = false) : (a == b) = false := by
  show Value.equal a b = false
  cases b with
  | nil => cases a <;> first | rfl | cases ha
  | multi => cases a <;> first | rfl | cases ha
  | number y =>
    cases a with
    | number x =>
      rw [Value.isKey, Bool.not_eq_true'] at ha
      rw [Value.isKey, Bool.not_eq_false'] at hb
      by_contra equal
      rcases (Number.beq_iff ha).1 (Bool.eq_true_of_not_eq_false equal) with rfl | ⟨-, zero⟩
      · rw [ha] at hb
        cases hb
      · rw [Number.isNaN, zero.1] at hb
        cases hb
    | _ => rfl
  | _ => cases hb

end Key

/-! ## Array positions -/

namespace Table

variable {a b : Value} {k : Key} {i : Nat}

theorem number_of_arrayIndex? (h : arrayIndex? a = some i) :
    ∃ x, a = .number x ∧ Number.isIntegral x = true ∧ Number.truncate x = (i + 1 : Nat) := by
  cases a with
  | number x =>
    rw [arrayIndex?] at h
    split at h
    · rename_i integral
      refine ⟨x, rfl, integral.1, ?_⟩
      have position := Option.some.inj h
      omega
    · cases h
  | _ => cases h

theorem arrayIndex?_number {x : Float} (integral : Number.isIntegral x = true)
    (whole : Number.truncate x = (i + 1 : Nat)) : arrayIndex? (.number x) = some i := by
  rw [arrayIndex?, if_pos ⟨integral, by omega⟩]
  congr 1
  omega

/-- The position of a value depends on its key only. -/
theorem arrayIndex?_congr (ha : Key.ofValue a = .ok k) (hb : Key.ofValue b = .ok k) :
    arrayIndex? a = arrayIndex? b := by
  have zero {x : Float} (h : Number.IsZero x) : arrayIndex? (.number x) = none := by
    rw [arrayIndex?, if_neg]
    rw [Number.truncate_of_isZero h]
    omega
  cases a with
  | number x =>
    obtain ⟨-, rfl⟩ := Key.ofValue_number ha
    cases b with
    | number y =>
      obtain ⟨-, same⟩ := Key.ofValue_number hb
      rcases Key.ofNumber_eq_iff.1 same with rfl | ⟨hx, hy⟩
      · rfl
      · rw [zero hx, zero hy]
    | _ => cases hb
  | nil => cases ha
  | multi => cases ha
  | _ =>
    cases b with
    | number y =>
      obtain ⟨-, same⟩ := Key.ofValue_number hb
      rw [same] at ha
      cases ha
    | _ => rfl

/-- Two keys do not share a position. -/
theorem eq_of_arrayIndex? (ha : arrayIndex? a = some i) (hb : arrayIndex? b = some i) : a = b := by
  obtain ⟨x, rfl, hx, wholeX⟩ := number_of_arrayIndex? ha
  obtain ⟨y, rfl, hy, wholeY⟩ := number_of_arrayIndex? hb
  rw [Number.eq_of_truncate_eq (Nat.le_add_left 1 i) hx hy wholeX wholeY]

theorem arrayIndex?_ofNat (short : i < 2 ^ 53) : arrayIndex? (.number (Float.ofNat (i + 1))) = some i := by
  obtain ⟨integral, whole⟩ := Number.truncate_ofNat (Nat.le_add_left 1 i) short
  exact arrayIndex?_number integral whole

/-- No key has the position after the `2 ^ 53`rd. -/
theorem arrayIndex?_ne (a : Value) : arrayIndex? a ≠ some (2 ^ 53) := by
  intro last
  obtain ⟨x, -, integral, whole⟩ := number_of_arrayIndex? last
  have := Number.even_of_large integral whole (by decide)
  revert this
  decide

theorem ofValue_ofNat (short : i < 2 ^ 53) :
    Key.ofValue (.number (Float.ofNat (i + 1))) = .ok (Key.ofNat (i + 1)) := by
  have integral := (Number.truncate_ofNat (Nat.le_add_left 1 i) short).1
  rw [Key.ofValue, Number.isNaN_of_isIntegral integral, if_neg Bool.false_ne_true, Key.ofNat]

end Table

end ScriptEngine
