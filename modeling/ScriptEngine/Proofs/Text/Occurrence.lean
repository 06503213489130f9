import Mathlib.Data.List.Infix
import ScriptEngine.Repl

/-!
# Words in a longer text

`occursIn` decides whether some words stand in a text (`occursIn_iff`). A character that the words do not have
divides the text (`infix_divide`), and quoting a string neither brings words into it nor takes them out, if no escape
can be taken for a part of them (`infix_quoted_iff`). The text of a number has no blank (`blank_notMem_debugText`).
-/

set_option linter.dupNamespace false

namespace ScriptEngine

variable {words cs left right : List Char} {a c : Char}

theorem occursIn_iff : occursIn words cs = true ↔ words <:+: cs := by
  induction cs with
  | nil => rw [occursIn, List.isEmpty_iff, List.infix_nil]
  | cons c cs ih => rw [occursIn, Bool.or_eq_true, List.isPrefixOf_iff_prefix, ih, List.infix_cons_iff]

/-- Words without the character `c` stand on one of its sides. -/
theorem infix_divide (other : c ∉ words) : words <:+: left ++ c :: right ↔ words <:+: left ∨ words <:+: right := by
  rw [List.infix_append_iff]
  refine or_congr_right' fun elsewhere => ⟨?_, fun inside => .inl (inside.trans (List.infix_cons List.infix_rfl))⟩
  have start (head : List Char) (before : head <+: c :: right) (part : ∀ d ∈ head, d ∈ words) : head = [] := by
    cases head with
    | nil => rfl
    | cons d head =>
      obtain ⟨rfl, -⟩ := List.cons_prefix_cons.1 before
      exact absurd (part d (.head _)) other
  rintro (inside | ⟨first, second, split, behind, before⟩)
  · rcases List.infix_cons_iff.1 inside with before | inside
    · rw [start words before fun _ => id]
      exact List.nil_infix
    · exact inside
  · have none := start second before fun d mem => by rw [split]; exact List.mem_append_right _ mem
    rw [none, List.append_nil] at split
    exact absurd (split ▸ behind).isInfix elsewhere

/-- The words do not start among characters other than their first one. -/
theorem infix_skip (other : a ∉ left) : a :: words <:+: left ++ right ↔ a :: words <:+: right := by
  induction left with
  | nil => exact Iff.rfl
  | cons d left ih =>
    rw [List.mem_cons, not_or] at other
    rw [List.cons_append, List.infix_cons_iff, ih other.2, List.cons_prefix_cons]
    exact ⟨fun inside => inside.resolve_left fun same => other.1 same.1, .inr⟩

/-! ## Quoted strings -/

namespace Text

theorem toDigits_hex {n : Nat} (mem : c ∈ Nat.toDigits 16 n) : ∃ d < 16, c = Nat.digitChar d := by
  induction n using Nat.strongRecOn with
  | _ n ih =>
    rw [Nat.toDigits_eq_if (by decide)] at mem
    split at mem
    · exact ⟨n, ‹_›, List.mem_singleton.1 mem⟩
    · rcases List.mem_append.1 mem with mem | mem
      · exact ih _ (by omega) mem
      · exact ⟨n % 16, Nat.mod_lt _ (by decide), List.mem_singleton.1 mem⟩

theorem toList_quoted (s : String) :
    (quoted s).toList = ['"'] ++ (s.toList.flatMap (quotedChar · |>.toList) ++ ['"']) := by
  have go (cs : List Char) (acc : String) : (cs.foldl (fun acc c => acc ++ quotedChar c) acc).toList =
      acc.toList ++ cs.flatMap (quotedChar · |>.toList) := by
    induction cs generalizing acc with
    | nil => simp
    | cons c cs ih => simp [ih]
  simp [quoted, String.foldl_eq_foldl_toList, go]

/-- The characters that stand for another one behind a backslash, or for themselves. -/
def marks : List Char := ['"', '\\', 'n', 'r', 't', '0']

/-- A character stands for itself, or behind a backslash there is a mark for it or its number. -/
theorem quotedChar_cases (c : Char) : (quotedChar c).toList = [c] ∨ ∃ tail, (quotedChar c).toList = '\\' :: tail ∧
    ((∃ d ∈ marks, tail = [d]) ∨ tail = 'u' :: '{' :: (Nat.toDigits 16 c.toNat ++ ['}'])) := by
  unfold quotedChar
  split
  · exact .inr ⟨_, rfl, .inl ⟨'"', by decide, rfl⟩⟩
  · exact .inr ⟨_, rfl, .inl ⟨'\\', by decide, rfl⟩⟩
  · exact .inr ⟨_, rfl, .inl ⟨'n', by decide, rfl⟩⟩
  · exact .inr ⟨_, rfl, .inl ⟨'r', by decide, rfl⟩⟩
  · exact .inr ⟨_, rfl, .inl ⟨'t', by decide, rfl⟩⟩
  · split
    · exact .inr ⟨_, rfl, .inl ⟨'0', by decide, rfl⟩⟩
    · split
      · exact .inl (by simp)
      · exact .inr ⟨_, by simp [hexDigits], .inr rfl⟩

/-- The character shows as itself. -/
def IsPlain (c : Char) : Prop := 0x20 ≤ c.toNat ∧ c.toNat < 0x7f ∧ c ≠ '"' ∧ c ≠ '\\'

theorem quotedChar_of_isPlain (plain : IsPlain c) : (quotedChar c).toList = [c] := by
  obtain ⟨low, high, quote, backslash⟩ := plain
  have shown : isShown c = true := by simp [isShown, low, high]
  unfold quotedChar
  split
  · exact absurd rfl quote
  · exact absurd rfl backslash
  · exact absurd low (by decide)
  · exact absurd low (by decide)
  · exact absurd low (by decide)
  · rw [if_neg (by omega), if_pos shown, Char.toString, String.toList_singleton]

/-- Words that no escape can be taken for a part of. -/
structure Plain (words : List Char) : Prop where
  shown : ∀ c ∈ words, IsPlain c
  /-- The first character is in no escape, except that it may be what a number starts with. -/
  rare : ∀ c ∈ words.head?, c ∉ marks ∧ c ≠ '{' ∧ c ≠ '}' ∧ ∀ d < 16, c ≠ Nat.digitChar d
  second : words.head? = some 'u' → ∀ rest, ¬words.tail <+: '{' :: rest

variable {s : String}

theorem Plain.prefix_iff (shown : ∀ c ∈ words, IsPlain c) :
    words <+: cs.flatMap (quotedChar · |>.toList) ++ ['"'] ↔ words <+: cs := by
  induction words generalizing cs with
  | nil => simp
  | cons a words ih =>
    have first := shown a (.head _)
    obtain ⟨-, -, quote, backslash⟩ := id first
    cases cs with
    | nil => simp [quote]
    | cons c cs =>
      rw [List.flatMap_cons, List.append_assoc, List.cons_prefix_cons]
      rcases quotedChar_cases c with itself | ⟨tail, escaped, -⟩
      · rw [itself, List.singleton_append, List.cons_prefix_cons, ih fun c mem => shown c (.tail _ mem)]
      · rw [escaped, List.cons_append, List.cons_prefix_cons]
        refine ⟨fun h => absurd h.1 backslash, fun h => ?_⟩
        -- the character would have to stand for itself
        rw [← h.1, quotedChar_of_isPlain first] at escaped
        exact absurd (List.cons.inj escaped).1 backslash

/-- Words stand in a quoted string when they stand in the string. -/
theorem infix_quoted_iff (plain : Plain words) (some' : words ≠ []) :
    words <:+: (quoted s).toList ↔ words <:+: s.toList := by
  obtain ⟨a, words, rfl⟩ := List.exists_cons_of_ne_nil some'
  have rare := plain.rare a rfl
  have quote : a ∉ ['"'] := fun mem => rare.1 (List.mem_singleton.1 mem ▸ List.mem_cons_self)
  rw [toList_quoted, infix_skip quote]
  generalize s.toList = cs
  induction cs with
  | nil =>
    rw [List.flatMap_nil, List.nil_append, ← List.append_nil ['"'], infix_skip quote]
  | cons c cs ih =>
    refine Iff.trans ?_ ((or_congr_right ih).trans List.infix_cons_iff.symm)
    rw [← Plain.prefix_iff plain.shown, List.flatMap_cons, List.append_assoc]
    generalize cs.flatMap (quotedChar · |>.toList) ++ ['"'] = rest
    rcases quotedChar_cases c with itself | ⟨tail, escaped, form⟩
    · rw [itself, List.singleton_append, List.infix_cons_iff]
    · rw [escaped, List.cons_append, List.cons_prefix_cons]
      have outside : a :: words <:+: tail ++ rest ↔ a :: words <:+: rest := by
        rcases form with ⟨d, known, rfl⟩ | rfl
        · exact infix_skip fun mem => rare.1 (List.mem_singleton.1 mem ▸ known)
        · have number : a ∉ '{' :: (Nat.toDigits 16 c.toNat ++ ['}']) := by
            rw [List.mem_cons, List.mem_append, List.mem_singleton]
            rintro (open' | digit | close)
            · exact rare.2.1 open'
            · obtain ⟨d, small, same⟩ := toDigits_hex digit
              exact rare.2.2.2 d small same
            · exact rare.2.2.1 close
          rw [List.cons_append, List.infix_cons_iff, infix_skip number]
          refine ⟨fun inside => inside.resolve_left fun before => ?_, .inr⟩
          obtain ⟨rfl, behind⟩ := List.cons_prefix_cons.1 before
          exact plain.second rfl _ behind
      rw [List.infix_cons_iff, List.cons_prefix_cons, outside]

end Text

/-! ## Numbers -/

namespace Number

/-- There is no blank in the text. -/
def Solid (s : String) : Prop := ' ' ∉ s.toList

instance (s : String) : Decidable (Solid s) := inferInstanceAs (Decidable (' ' ∉ s.toList))

theorem Solid.append {s t : String} (hs : Solid s) (ht : Solid t) : Solid (s ++ t) := by
  unfold Solid at *
  simp [hs, ht]

theorem Solid.take {s : String} (hs : Solid s) (n : Nat) : Solid (s.take n).toString := by
  unfold Solid at *
  simpa using fun mem => hs (List.mem_of_mem_take mem)

theorem Solid.drop {s : String} (hs : Solid s) (n : Nat) : Solid (s.drop n).toString := by
  unfold Solid at *
  simpa using fun mem => hs (List.mem_of_mem_drop mem)

theorem solid_repr (n : Nat) : Solid n.repr := by
  intro mem
  rw [Nat.repr_eq_ofList_toDigits, String.toList_ofList] at mem
  cases Nat.isDigit_of_mem_toDigits (by decide) (by decide) mem

theorem solid_toString (n : Int) : Solid (toString n) := by
  rw [Int.toString_eq_repr, Int.repr_eq_if]
  split
  · exact solid_repr _
  · exact .append (by decide) (solid_repr _)

theorem solid_zeros (n : Nat) : Solid (zeros n) := by
  simp [Solid, zeros]

theorem solid_positional (d : Decimal) : Solid (positional d) := by
  have digits : Solid (digitsOf d.digits) := solid_repr _
  have point : Solid "." := by decide
  have zero : Solid "0." := by decide
  unfold positional
  dsimp only
  split
  · exact digits.append (solid_zeros _)
  · split
    · exact (zero.append (solid_zeros _)).append digits
    · exact ((digits.take _).append point).append (digits.drop _)

theorem solid_scientific (d : Decimal) : Solid (scientific d) := by
  have digits : Solid (digitsOf d.digits) := solid_repr _
  have point : Solid "." := by decide
  have e : Solid "e" := by decide
  unfold scientific
  dsimp only
  refine ((Solid.append ((digits.take 1).append ?_) e).append (solid_toString _))
  split
  · decide
  · exact point.append (digits.drop 1)

theorem Solid.signed {s : String} (hs : Solid s) (x : Float) : Solid (signed x s) := by
  have minus : Solid "-" := by decide
  unfold Number.signed
  split
  · exact minus.append hs
  · exact hs

theorem solid_plainText (x : Float) : Solid (plainText x) := by
  unfold plainText
  split
  · decide
  · split
    · exact Solid.signed (by decide) x
    · exact (solid_positional _).signed x

theorem solid_debugText (x : Float) : Solid (debugText x) := by
  have fraction : Solid ".0" := by decide
  have zero : Solid "0.0" := by decide
  unfold debugText
  dsimp only
  split
  · split
    · exact zero.signed x
    · split
      · exact (solid_scientific _).signed x
      · split
        · exact ((solid_positional _).append fraction).signed x
        · exact (solid_positional _).signed x
  · exact solid_plainText x

end Number

end ScriptEngine
