import Mathlib
import ScriptEngine.Proofs.Lexer.Escapes

/-!
# Texts that are numbers

A text is coerced to a number by a reader of its own, which knows nothing of the lexer. It accepts the numerals of
the lexer, each of them whole and with the number that the token carries, and their negations (`ofText?_eq_some_iff`).
Beyond these it accepts a plus sign, in front of a decimal numeral and in front of the digits of a hexadecimal one.
-/

namespace ScriptEngine

namespace Lexer

/-- The lexer makes one token of the whole text, and the token is this number. -/
def IsNumeral (cs : List Char) (n : Float) : Prop :=
  ∃ c rest, cs = c :: rest ∧ piece c rest = .ok ⟨some (.number n), rest.length⟩

/-- The mark of a hexadecimal numeral. -/
def HexMark (x : Char) : Prop := x = 'x' ∨ x = 'X'

variable {c x : Char} {cs ds : List Char} {n : Float}

theorem isNumeral_iff : IsNumeral cs n ↔ Lexeme (.number n) cs := by
  constructor
  · rintro ⟨c, rest, rfl, found⟩
    obtain ⟨text, behind, parts, length, lexeme⟩ := piece_sound found
    have none' : behind = [] := by
      have := congrArg List.length parts
      rw [List.length_append, List.length_cons] at this
      exact List.length_eq_zero_iff.1 (by simp only [] at length; omega)
    rw [parts, none', List.append_nil]
    exact lexeme
  · intro lexeme
    obtain ⟨c, rest, rfl⟩ := List.exists_cons_of_ne_nil lexeme.ne_nil
    have found := piece_of_lexeme lexeme (show Apart [] by simp [Apart])
    rw [List.append_nil] at found
    exact ⟨c, rest, rfl, found⟩

/-- A whole text that is a numeral has one token. -/
theorem IsNumeral.tokens (numeral : IsNumeral cs n) :
    Lexer.tokens (.ofList cs) = .ok #[⟨.number n, .start⟩, ⟨.eof, Position.start.afterAll cs⟩] := by
  rw [Lexer.tokens, String.toList_ofList, ← List.append_nil cs,
    tokensFrom_lexeme (isNumeral_iff.1 numeral) (show Apart [] by simp [Apart]), List.append_nil]
  rfl

/-! ## Hexadecimal numerals -/

theorem isHexDigit_of_hexDigit {value : Nat} (digit : HexDigit c value) : isHexDigit c = true := by
  obtain ⟨found, small⟩ := digit
  simp only [isHexDigit, Bool.or_eq_true, Bool.and_eq_true, decide_eq_true_eq]
  unfold Number.digitValue? at found
  split at found
  · rename_i range
    exact .inl (.inl (isDigit_iff.2 range))
  · split at found
    · rename_i range
      cases found
      refine .inl (.inr ⟨range.1, ?_⟩)
      show c.toNat ≤ 102
      omega
    · split at found
      · rename_i range
        cases found
        refine .inr ⟨range.1, ?_⟩
        show c.toNat ≤ 70
        omega
      · cases found

theorem hexDigits_of_naturalFrom? {acc m : Nat} (read : Number.naturalFrom? 16 acc cs = some m) :
    ∀ c ∈ cs, isHexDigit c = true := by
  induction cs generalizing acc with
  | nil => exact nofun
  | cons d cs ih =>
    obtain ⟨value, digit, rest⟩ := naturalFrom?_cons.1 read
    exact List.forall_mem_cons.2 ⟨isHexDigit_of_hexDigit digit, ih rest⟩

theorem isNumeral_hex (mark : HexMark x) : IsNumeral ('0' :: x :: ds) n ↔
    ds ≠ [] ∧ (∀ c ∈ ds, isHexDigit c = true) ∧ (Number.unsigned? 16 ds).map Float.ofNat = some n := by
  rw [isNumeral_iff]
  constructor
  · intro lexeme
    generalize same : '0' :: x :: ds = text at lexeme
    cases lexeme with
    | decimal numeral value =>
      obtain ⟨lower, upper⟩ := numeral.ne_hex (c := x) (same ▸ by simp)
      rcases mark with rfl | rfl
      · exact absurd rfl lower
      · exact absurd rfl upper
    | hexadecimal mark' some' digits value =>
      cases same
      exact ⟨some', digits, congrArg (Option.map Float.ofNat) value⟩
  · rintro ⟨some', digits, read⟩
    obtain ⟨m, value, rfl⟩ := Option.map_eq_some_iff.1 read
    exact .hexadecimal mark some' digits value

theorem unsigned?_cons_iff (mark : HexMark x) (plus : c ≠ '+') :
    (Number.unsigned? 16 (c :: cs)).map Float.ofNat = some n ↔ IsNumeral ('0' :: x :: c :: cs) n := by
  rw [isNumeral_hex mark]
  refine ⟨fun read => ⟨List.cons_ne_nil _ _, ?_, read⟩, fun h => h.2.2⟩
  obtain ⟨m, value, -⟩ := Option.map_eq_some_iff.1 read
  rw [unsigned?_of_ne_plus plus] at value
  exact hexDigits_of_naturalFrom? (Option.filter_eq_some_iff.1 value).1

theorem not_isNumeral_hexPlus (mark : HexMark x) : ¬IsNumeral ('0' :: x :: '+' :: cs) n := fun numeral =>
  absurd (((isNumeral_hex mark).1 numeral).2.1 '+' (.head _)) (by decide)

/-- What is read as hexadecimal digits: a numeral's, or such with a plus sign in front. -/
theorem unsigned?_hex_iff (mark : HexMark x) : (Number.unsigned? 16 ds).map Float.ofNat = some n ↔
    IsNumeral ('0' :: x :: ds) n ∨ ∃ ds', ds = '+' :: ds' ∧ IsNumeral ('0' :: x :: ds') n := by
  have empty : ¬IsNumeral ['0', x] n := fun numeral => ((isNumeral_hex mark).1 numeral).1 rfl
  rcases ds with _ | ⟨c, ds⟩
  · simp [Number.unsigned?, Number.natural?, empty]
  by_cases plus : c = '+'
  · subst plus
    simp only [not_isNumeral_hexPlus mark, false_or, List.cons.injEq, true_and, exists_eq_left']
    rcases ds with _ | ⟨c, ds⟩
    · simp [Number.unsigned?, Number.natural?, empty]
    by_cases plus : c = '+'
    · subst plus
      simp [Number.unsigned?, Number.natural?, Number.naturalFrom?, Number.digitValue?, not_isNumeral_hexPlus mark]
    · rw [← unsigned?_cons_iff mark plus, unsigned?_of_ne_plus plus]
      rfl
  · rw [unsigned?_cons_iff mark plus]
    simp [plus]

/-! ## Decimal numerals -/

theorem digits_of_naturalFrom? {acc m : Nat} (read : Number.naturalFrom? 10 acc cs = some m) : Digits cs := by
  induction cs generalizing acc with
  | nil => exact nofun
  | cons d cs ih =>
    rw [Number.naturalFrom?] at read
    split at read
    · rename_i value found
      split at read
      · rename_i small
        refine List.forall_mem_cons.2 ⟨?_, ih read⟩
        unfold Number.digitValue? at found
        split at found
        · exact isDigit_iff.2 ‹_›
        · split at found
          · rename_i range
            cases found
            have : 97 ≤ d.toNat := range.1
            omega
          · split at found
            · rename_i range
              cases found
              have : 65 ≤ d.toNat := range.1
              omega
            · cases found
      · cases read
    · cases read

theorem digits_of_natural? {m : Nat} (read : Number.natural? 10 ds = some m) : ds ≠ [] ∧ Digits ds := by
  cases ds with
  | nil => cases read
  | cons d ds => exact ⟨List.cons_ne_nil _ _, digits_of_naturalFrom? read⟩

theorem power_of_exponentPart? {e : Int} (read : Number.exponentPart? cs = some e) : cs = [] ∨ ∃ e sign ds,
    cs = e :: (sign ++ ds) ∧ (e = 'e' ∨ e = 'E') ∧ (sign = [] ∨ sign = ['+'] ∨ sign = ['-']) ∧ ds ≠ [] ∧ Digits ds := by
  unfold Number.exponentPart? at read
  split at read
  · exact .inl rfl
  · rename_i c rest
    split at read
    · rename_i mark
      right
      split at read
      · rename_i ds
        cases value : Number.natural? 10 ds with
        | none => simp [value] at read
        | some m => exact ⟨c, ['-'], ds, rfl, mark, .inr (.inr rfl), digits_of_natural? value⟩
      · rename_i ds
        obtain ⟨m, value, -⟩ := Option.map_eq_some_iff.1 read
        exact ⟨c, ['+'], ds, rfl, mark, .inr (.inl rfl), digits_of_natural? value⟩
      · obtain ⟨m, value, -⟩ := Option.map_eq_some_iff.1 read
        exact ⟨c, [], rest, rfl, mark, .inl rfl, digits_of_natural? value⟩
    · cases read

theorem numeral_of_numeral? {m : Number.Numeral} (read : Number.numeral? cs = some m) :
    ∃ whole fraction exponent, DecimalNumeral cs whole fraction exponent := by
  have split := List.takeWhile_append_dropWhile (p := Char.isDigit) (l := cs)
  rw [Number.numeral?] at read
  dsimp only at read
  split at read
  · rename_i more behind
    split at read
    · cases read
    · rename_i some'
      obtain ⟨e, exponent, -⟩ := Option.map_eq_some_iff.1 read
      refine ⟨cs.takeWhile Char.isDigit, '.' :: more.takeWhile Char.isDigit, more.dropWhile Char.isDigit, ?_,
        digits_takeWhile cs, .inr ⟨_, rfl, digits_takeWhile more⟩, ?_, power_of_exponentPart? exponent⟩
      · rw [List.cons_append, List.takeWhile_append_dropWhile, ← behind, split]
      · cases fraction : more.takeWhile Char.isDigit with
        | nil =>
          rw [fraction] at some'
          exact .inl (by simpa using some')
        | cons d ds => exact .inr ⟨d, ds, rfl⟩
  · split at read
    · cases read
    · rename_i some'
      obtain ⟨e, exponent, -⟩ := Option.map_eq_some_iff.1 read
      refine ⟨cs.takeWhile Char.isDigit, [], cs.dropWhile Char.isDigit, by rw [List.nil_append, split],
        digits_takeWhile cs, .inl rfl, .inl ?_, power_of_exponentPart? exponent⟩
      simpa using some'

/-- A decimal numeral starts with no sign. -/
theorem decimal?_of_numeral? {m : Number.Numeral} (read : Number.numeral? cs = some m) :
    Number.decimal? cs = some m.value := by
  unfold Number.decimal?
  split
  · cases read
  · cases read
  · rw [read]
    rfl

theorem isNumeral_decimal (decimal : ∀ x ds, HexMark x → cs ≠ '0' :: x :: ds) :
    IsNumeral cs n ↔ (Number.numeral? cs).map Number.Numeral.value = some n := by
  rw [isNumeral_iff]
  constructor
  · intro lexeme
    cases lexeme with
    | decimal numeral value =>
      unfold Number.decimal? at value
      split at value
      · cases numeral.starts []
      · cases numeral.starts []
      · exact value
    | hexadecimal mark => exact absurd rfl (decimal _ _ mark)
  · intro read
    obtain ⟨m, found, rfl⟩ := Option.map_eq_some_iff.1 read
    obtain ⟨whole, fraction, exponent, numeral⟩ := numeral_of_numeral? found
    exact .decimal numeral (decimal?_of_numeral? found)

end Lexer

open Lexer

namespace Number

/-- The spellings of a number without a sign before it. -/
inductive Spells : List Char → Float → Prop
  | literal {cs n} (numeral : IsNumeral cs n) : Spells cs n
  /-- A plus sign behind the mark of a hexadecimal numeral. -/
  | hexPlus {x ds n} (mark : HexMark x) (numeral : IsNumeral ('0' :: x :: ds) n) : Spells ('0' :: x :: '+' :: ds) n

/-- The texts that are coerced to a number, without the blanks around them. -/
inductive Coerces : List Char → Float → Prop
  | unsigned {cs n} (spells : Spells cs n) : Coerces cs n
  | minus {cs n} (spells : Spells cs n) : Coerces ('-' :: cs) (-n)
  /-- A plus sign in front of a decimal numeral. -/
  | plus {cs n} (numeral : IsNumeral cs n) (decimal : ∀ x ds, HexMark x → cs ≠ '0' :: x :: ds) : Coerces ('+' :: cs) n

variable {cs : List Char} {n : Float} {s : String}

/-! ## Numerals without a sign -/

/-- What is read of a text behind its sign. -/
def unsignedOfText? : List Char → Option Float
  | '0' :: 'x' :: ds => (unsigned? 16 ds).map Float.ofNat
  | '0' :: 'X' :: ds => (unsigned? 16 ds).map Float.ofNat
  | cs => (numeral? cs).map Numeral.value

theorem spells_hex {x : Char} {ds : List Char} (mark : HexMark x) :
    Spells ('0' :: x :: ds) n ↔ (unsigned? 16 ds).map Float.ofNat = some n := by
  rw [unsigned?_hex_iff mark]
  constructor
  · intro spells
    generalize same : '0' :: x :: ds = cs at spells
    cases spells with
    | literal numeral => exact .inl (same ▸ numeral)
    | hexPlus mark numeral =>
      cases same
      exact .inr ⟨_, rfl, numeral⟩
  · rintro (numeral | ⟨ds, rfl, numeral⟩)
    · exact .literal numeral
    · exact .hexPlus mark numeral

theorem spells_decimal (decimal : ∀ x ds, HexMark x → cs ≠ '0' :: x :: ds) :
    Spells cs n ↔ (numeral? cs).map Numeral.value = some n := by
  rw [← isNumeral_decimal decimal]
  constructor
  · rintro (numeral | ⟨mark, -⟩)
    · exact numeral
    · exact absurd rfl (decimal _ _ mark)
  · exact .literal

theorem unsignedOfText?_iff : unsignedOfText? cs = some n ↔ Spells cs n := by
  unfold unsignedOfText?
  split
  · exact (spells_hex (.inl rfl)).symm
  · exact (spells_hex (.inr rfl)).symm
  · rename_i lower upper
    refine (spells_decimal ?_).symm
    rintro x ds (rfl | rfl) rfl
    · exact lower _ rfl
    · exact upper _ rfl

/-! ## The letters of a decimal numeral -/

theorem not_isAlpha_of_digit {c : Char} (digit : c.isDigit = true) : c.isAlpha = false := by
  have high : c.val.toNat ≤ 57 := (isDigit_iff.1 digit).2
  simp only [Char.isAlpha, Char.isUpper, Char.isLower, Bool.or_eq_false_iff, Bool.and_eq_false_iff,
    decide_eq_false_iff_not, ge_iff_le, UInt32.le_iff_toNat_le]
  have upper : 'A'.val.toNat = 65 := rfl
  have lower : 'a'.val.toNat = 97 := rfl
  omega

theorem onlyExponentLetters_of_numeral {whole fraction exponent : List Char}
    (numeral : DecimalNumeral cs whole fraction exponent) : onlyExponentLetters cs = true := by
  have digit {c : Char} (digit : c.isDigit = true) : (!c.isAlpha || c == 'e' || c == 'E') = true := by
    rw [not_isAlpha_of_digit digit]
    rfl
  obtain ⟨rfl, digits, point, -, power⟩ := numeral
  unfold onlyExponentLetters
  rw [List.all_append, List.all_append, Bool.and_eq_true, Bool.and_eq_true]
  refine ⟨List.all_eq_true.2 fun c mem => digit (digits c mem), ?_, ?_⟩
  · rcases point with rfl | ⟨ds, rfl, digits⟩
    · rfl
    · rw [List.all_cons, Bool.and_eq_true]
      exact ⟨rfl, List.all_eq_true.2 fun c mem => digit (digits c mem)⟩
  · rcases power with rfl | ⟨e, sign, ds, rfl, mark, form, -, digits⟩
    · rfl
    · rw [List.all_cons, List.all_append, Bool.and_eq_true, Bool.and_eq_true]
      refine ⟨?_, ?_, List.all_eq_true.2 fun c mem => digit (digits c mem)⟩
      · rcases mark with rfl | rfl <;> rfl
      · rcases form with rfl | rfl | rfl <;> rfl

/-- The numeral that a decimal reading has is free of other letters. -/
theorem onlyExponentLetters_of_numeral? {m : Numeral} (read : numeral? cs = some m) : onlyExponentLetters cs = true := by
  obtain ⟨whole, fraction, exponent, numeral⟩ := numeral_of_numeral? read
  exact onlyExponentLetters_of_numeral numeral

theorem onlyExponentLetters_of_decimal? (read : decimal? cs = some n) : onlyExponentLetters cs = true := by
  have letters {rest : List Char} {f : Numeral → Float} (read : (numeral? rest).map f = some n) :
      onlyExponentLetters rest = true := by
    obtain ⟨m, found, -⟩ := Option.map_eq_some_iff.1 read
    exact onlyExponentLetters_of_numeral? found
  unfold decimal? at read
  split at read
  · rename_i rest
    exact (letters read : onlyExponentLetters rest = true)
  · rename_i rest
    exact (letters read : onlyExponentLetters rest = true)
  · exact letters read

/-- Asking for the letters first refuses nothing that could be read. -/
theorem decimal?_of_letters : (if onlyExponentLetters cs then decimal? cs else none) = decimal? cs := by
  split
  · rfl
  · rename_i letters
    cases read : decimal? cs with
    | none => rfl
    | some n => exact absurd (onlyExponentLetters_of_decimal? read) letters

/-! ## Signs -/

/-- A text is marked as hexadecimal in one of two ways, or it is read as a decimal. -/
theorem hex_or_decimal (cs : List Char) : (∃ ds, cs = '0' :: 'x' :: ds) ∨ (∃ ds, cs = '0' :: 'X' :: ds) ∨
    (∀ ds, cs ≠ '0' :: 'x' :: ds) ∧ ∀ ds, cs ≠ '0' :: 'X' :: ds := by
  by_cases lower : ∃ ds, cs = '0' :: 'x' :: ds
  · exact .inl lower
  · by_cases upper : ∃ ds, cs = '0' :: 'X' :: ds
    · exact .inr (.inl upper)
    · exact .inr (.inr ⟨fun ds same => lower ⟨ds, same⟩, fun ds same => upper ⟨ds, same⟩⟩)

theorem unsignedOfText?_decimal (lower : ∀ ds, cs ≠ '0' :: 'x' :: ds) (upper : ∀ ds, cs ≠ '0' :: 'X' :: ds) :
    unsignedOfText? cs = (numeral? cs).map Numeral.value := by
  unfold unsignedOfText?
  split
  · exact absurd rfl (lower _)
  · exact absurd rfl (upper _)
  · rfl

theorem ofText?_minus (text : Text.trim s.toList = '-' :: cs) :
    ofText? s = (unsignedOfText? cs).map fun n => -n := by
  rw [ofText?, text]
  dsimp only
  rw [decimal?_of_letters]
  rcases hex_or_decimal cs with ⟨ds, rfl⟩ | ⟨ds, rfl⟩ | ⟨lower, upper⟩
  · exact (Option.map_map (fun n : Float => -n) Float.ofNat (unsigned? 16 ds)).symm
  · exact (Option.map_map (fun n : Float => -n) Float.ofNat (unsigned? 16 ds)).symm
  · rw [unsignedOfText?_decimal lower upper]
    split
    · rename_i same
      exact absurd same (lower _)
    · rename_i same
      exact absurd same (upper _)
    · exact (Option.map_map ..).symm

theorem ofText?_plus (text : Text.trim s.toList = '+' :: cs) : ofText? s = (numeral? cs).map Numeral.value := by
  rw [ofText?, text]
  dsimp only
  rw [decimal?_of_letters]
  rfl

theorem ofText?_unsigned (minus : ∀ cs, Text.trim s.toList ≠ '-' :: cs) (plus : ∀ cs, Text.trim s.toList ≠ '+' :: cs) :
    ofText? s = unsignedOfText? (Text.trim s.toList) := by
  rw [ofText?]
  dsimp only
  generalize Text.trim s.toList = cs at minus plus ⊢
  rw [decimal?_of_letters]
  rcases hex_or_decimal cs with ⟨ds, rfl⟩ | ⟨ds, rfl⟩ | ⟨lower, upper⟩
  · rfl
  · rfl
  · rw [unsignedOfText?_decimal lower upper]
    split
    · rename_i same
      split at same
      · exact absurd rfl (minus _)
      · exact absurd same (lower _)
    · rename_i same
      split at same
      · exact absurd rfl (minus _)
      · exact absurd same (upper _)
    · unfold decimal?
      split
      · exact absurd rfl (minus _)
      · exact absurd rfl (plus _)
      · rfl

theorem not_spells_sign {c : Char} (sign : c = '-' ∨ c = '+') : ¬Spells (c :: cs) n := by
  intro spells
  generalize same : c :: cs = text at spells
  cases spells with
  | literal numeral =>
    have lexeme := isNumeral_iff.1 numeral
    cases lexeme with
    | decimal numeral =>
      subst same
      have starts := numeral.starts []
      rcases sign with rfl | rfl <;> cases starts
    | hexadecimal =>
      cases same
      rcases sign with sign | sign <;> cases sign
  | hexPlus =>
    cases same
    rcases sign with sign | sign <;> cases sign

/-- A text denotes a number exactly if it is a numeral, with a minus sign or without, or has a plus sign in front of
its decimal digits or behind its hexadecimal mark. -/
theorem ofText?_eq_some_iff (s : String) (n : Float) : ofText? s = some n ↔ Coerces (Text.trim s.toList) n := by
  by_cases minus : ∃ cs, Text.trim s.toList = '-' :: cs
  · obtain ⟨cs, text⟩ := minus
    rw [ofText?_minus text, text, Option.map_eq_some_iff]
    constructor
    · rintro ⟨m, read, rfl⟩
      exact .minus (unsignedOfText?_iff.1 read)
    · intro coerces
      cases coerces with
      | unsigned spells => exact absurd spells (not_spells_sign (.inl rfl))
      | minus spells => exact ⟨_, unsignedOfText?_iff.2 spells, rfl⟩
  by_cases plus : ∃ cs, Text.trim s.toList = '+' :: cs
  · obtain ⟨cs, text⟩ := plus
    rw [ofText?_plus text, text]
    constructor
    · intro read
      obtain ⟨m, found, -⟩ := Option.map_eq_some_iff.1 read
      obtain ⟨whole, fraction, exponent, numeral⟩ := numeral_of_numeral? found
      have decimal : ∀ x ds, HexMark x → cs ≠ '0' :: x :: ds := by
        rintro x ds mark rfl
        obtain ⟨lower, upper⟩ := numeral.ne_hex (c := x) (by simp)
        exact mark.elim lower upper
      exact .plus ((isNumeral_decimal decimal).2 read) decimal
    · intro coerces
      cases coerces with
      | unsigned spells => exact absurd spells (not_spells_sign (.inr rfl))
      | plus numeral decimal => exact (isNumeral_decimal decimal).1 numeral
  · rw [ofText?_unsigned (fun cs text => minus ⟨cs, text⟩) fun cs text => plus ⟨cs, text⟩, unsignedOfText?_iff]
    constructor
    · exact .unsigned
    · intro coerces
      generalize text : Text.trim s.toList = cs at coerces
      cases coerces with
      | unsigned spells => exact spells
      | minus => exact absurd ⟨_, text⟩ minus
      | plus => exact absurd ⟨_, text⟩ plus

end Number

end ScriptEngine
