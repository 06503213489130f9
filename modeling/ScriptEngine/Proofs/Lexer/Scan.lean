import ScriptEngine.Proofs.Lexer.Lexeme
import Mathlib.Data.List.TakeWhile
import Mathlib.Data.List.Infix

/-!
# What the lexer finds in a text

Each function that looks for a piece of a text is known by what it finds: the opening and the closing of a
long bracket (`openLevel?_iff`, `before?_eq_some`), the body of a quoted string (`quotedBody?_eq_some`) and a
decimal numeral (`numeralLength_sound`). Each of them finds a piece that is there, provided that what follows
does not go on with it (`before?_of_closed`, `quotedBody?_of_quotable`, `numeralLength_of_numeral`).
-/

namespace ScriptEngine.Lexer

variable {c quote : Char} {cs body rest seen : List Char} {level : Nat}

/-! ## Long brackets -/

theorem takeWhile_equals (level : Nat) (rest : List Char) :
    (List.replicate level '=' ++ '[' :: rest).takeWhile (· == '=') = List.replicate level '=' := by
  rw [List.takeWhile_append_of_pos (by simp)]
  simp

theorem openLevel?_iff : openLevel? cs = some level ↔ opening level <+: '[' :: cs := by
  rw [opening, List.cons_prefix_cons, and_iff_right rfl]
  unfold openLevel?
  dsimp only
  constructor
  · intro found
    have marks : cs.takeWhile (· == '=') = List.replicate (cs.takeWhile (· == '=')).length '=' := by
      rw [List.eq_replicate_iff]
      exact ⟨rfl, fun c mem => by simpa using List.mem_takeWhile_imp mem⟩
    have prefix' := List.prefix_iff_eq_append.1 (List.takeWhile_prefix (l := cs) (· == '='))
    split at found
    · rename_i rest behind
      cases found
      refine ⟨rest, ?_⟩
      rw [← marks, List.append_assoc, List.singleton_append, ← behind, prefix']
    · cases found
  · rintro ⟨rest, rfl⟩
    rw [List.append_assoc, List.singleton_append, takeWhile_equals, List.length_replicate,
      List.drop_left' (List.length_replicate ..)]
    rfl

/-- Whether the closing starts in a text that it follows does not depend on what comes behind it. -/
theorem closing_prefix_append :
    closing level <+: body ++ (closing level ++ rest) ↔ closing level <+: body ++ closing level := by
  rw [← List.append_assoc]
  refine ⟨fun found => ?_, fun found => found.trans (List.prefix_append _ _)⟩
  exact List.prefix_of_prefix_length_le found (List.prefix_append _ _) (by simp)

theorem before?_eq_some (found : before? (closing level) seen cs = some body) :
    ∃ text rest, body = seen.reverse ++ text ∧ cs = text ++ (closing level ++ rest) ∧ Closed level text := by
  induction cs generalizing seen with
  | nil => cases found
  | cons c cs ih =>
    rw [before?] at found
    split at found
    · rename_i here
      cases found
      obtain ⟨rest, split⟩ := List.isPrefixOf_iff_prefix.1 here
      refine ⟨[], rest, (List.append_nil _).symm, split.symm, fun before after split some' => ?_⟩
      exact absurd (List.append_eq_nil_iff.1 split.symm).2 some'
    · rename_i elsewhere
      obtain ⟨text, rest, rfl, rfl, closed⟩ := ih found
      refine ⟨c :: text, rest, by simp, rfl, fun before after split some' => ?_⟩
      cases before with
      | nil =>
        cases split
        rw [← closing_prefix_append]
        exact fun here => elsewhere (List.isPrefixOf_iff_prefix.2 here)
      | cons d before =>
        cases split
        exact closed before after rfl some'

theorem before?_of_closed (closed : Closed level body) (seen rest : List Char) :
    before? (closing level) seen (body ++ (closing level ++ rest)) = some (seen.reverse ++ body) := by
  induction body generalizing seen with
  | nil =>
    rw [List.nil_append, List.append_nil]
    show before? _ seen (']' :: _) = _
    rw [before?, if_pos]
    exact List.isPrefixOf_iff_prefix.2 (List.prefix_append (closing level) rest)
  | cons c body ih =>
    have elsewhere : ¬(closing level).isPrefixOf (c :: (body ++ (closing level ++ rest))) = true := by
      rw [List.isPrefixOf_iff_prefix]
      exact fun here => closed [] (c :: body) rfl (by simp) (closing_prefix_append.1 here)
    rw [List.cons_append, before?, if_neg elsewhere, ih fun before after split => closed (c :: before) after (by rw [split]; rfl)]
    simp

/-! ## Quoted strings -/

/-- What is found behind a backslash starts with the character that it protects. -/
theorem quotedBody?_eq_some {escaped : Bool} (found : quotedBody? quote escaped seen cs = some body) :
    ∃ text rest, body = seen.reverse ++ text ∧ cs = text ++ quote :: rest ∧
      if escaped then ∃ c more, text = c :: more ∧ Quotable quote more else Quotable quote text := by
  induction cs generalizing seen escaped with
  | nil => cases found
  | cons c cs ih =>
    rw [quotedBody?] at found
    cases escaped with
    | true =>
      obtain ⟨text, rest, rfl, rfl, quotable⟩ := ih found
      exact ⟨c :: text, rest, by simp, rfl, c, text, rfl, quotable⟩
    | false =>
      rw [if_neg Bool.false_ne_true] at found
      split at found
      · rename_i here
        cases found
        exact ⟨[], cs, (List.append_nil _).symm, by rw [here]; rfl, .nil⟩
      · rename_i quote'
        split at found
        · cases found
        · rename_i newline
          obtain ⟨text, rest, rfl, rfl, quotable⟩ := ih found
          refine ⟨c :: text, rest, by simp, rfl, ?_⟩
          by_cases backslash : c = '\\'
          · subst backslash
            obtain ⟨d, more, rfl, quotable⟩ := quotable
            exact .escaped quotable
          · rw [if_neg (by simpa using backslash)] at quotable
            exact .plain quote' backslash newline quotable

theorem quotedBody?_of_quotable (quote' : quote ≠ '\\') (quotable : Quotable quote body) (seen rest : List Char) :
    quotedBody? quote false seen (body ++ quote :: rest) = some (seen.reverse ++ body) := by
  induction quotable generalizing seen with
  | nil => simp [quotedBody?]
  | @plain c _ other backslash newline _ ih =>
    have plain : (c == '\\') = false := by simpa using backslash
    simp [quotedBody?, other, newline, plain, ih]
  | escaped _ ih => simp [quotedBody?, quote'.symm, ih]

/-! ## Decimal numerals -/

/-- No digit comes first. -/
def NoDigit (cs : List Char) : Prop := ∀ c ∈ cs.head?, c.isDigit = false

theorem digits_takeWhile (cs : List Char) : Digits (cs.takeWhile Char.isDigit) :=
  fun _ mem => List.mem_takeWhile_imp mem

theorem takeWhile_digits {ds : List Char} (digits : Digits ds) (stop : NoDigit rest) :
    (ds ++ rest).takeWhile Char.isDigit = ds := by
  rw [List.takeWhile_append_of_pos digits]
  cases rest with
  | nil => exact List.append_nil _
  | cons c rest => rw [List.takeWhile_cons_of_neg (by simp [stop c rfl]), List.append_nil]

theorem dropWhile_digits {ds : List Char} (digits : Digits ds) (stop : NoDigit rest) :
    (ds ++ rest).dropWhile Char.isDigit = rest := by
  have split := List.takeWhile_append_dropWhile (p := Char.isDigit) (l := ds ++ rest)
  rw [takeWhile_digits digits stop] at split
  exact List.append_cancel_left split

theorem fractionLength_sound (cs : List Char) : ∃ fraction rest, cs = fraction ++ rest ∧
    fraction.length = fractionLength cs ∧ (fraction = [] ∨ ∃ ds, fraction = '.' :: ds ∧ Digits ds) := by
  unfold fractionLength
  split
  · rename_i rest
    refine ⟨'.' :: rest.takeWhile Char.isDigit, rest.dropWhile Char.isDigit, ?_, ?_, .inr ⟨_, rfl, digits_takeWhile rest⟩⟩
    · rw [List.cons_append, List.takeWhile_append_dropWhile]
    · rw [List.length_cons, Nat.add_comm]
  · exact ⟨[], cs, rfl, rfl, .inl rfl⟩

/-- Behind its mark, an exponent has a sign, if one is there, and digits. -/
theorem exponentLength_cons {e : Char} (mark : e = 'e' ∨ e = 'E') (cs : List Char) :
    ∃ sign tail, cs = sign ++ tail ∧ (sign = [] ∨ sign = ['+'] ∨ sign = ['-']) ∧
      exponentLength (e :: cs) =
        if (tail.takeWhile Char.isDigit).length = 0 then 0
        else 1 + sign.length + (tail.takeWhile Char.isDigit).length := by
  simp only [exponentLength, if_pos mark]
  split
  · exact ⟨['+'], _, rfl, .inr (.inl rfl), rfl⟩
  · exact ⟨['-'], _, rfl, .inr (.inr rfl), rfl⟩
  · exact ⟨[], cs, rfl, .inl rfl, rfl⟩

theorem exponentLength_sound (cs : List Char) : ∃ exponent rest, cs = exponent ++ rest ∧
    exponent.length = exponentLength cs ∧ (exponent = [] ∨ ∃ e sign ds, exponent = e :: (sign ++ ds) ∧
      (e = 'e' ∨ e = 'E') ∧ (sign = [] ∨ sign = ['+'] ∨ sign = ['-']) ∧ ds ≠ [] ∧ Digits ds) := by
  cases cs with
  | nil => exact ⟨[], [], rfl, rfl, .inl rfl⟩
  | cons e cs =>
    by_cases mark : e = 'e' ∨ e = 'E'
    · obtain ⟨sign, tail, rfl, form, length⟩ := exponentLength_cons mark cs
      rw [length]
      split
      · exact ⟨[], _, rfl, rfl, .inl rfl⟩
      · rename_i some'
        refine ⟨e :: (sign ++ tail.takeWhile Char.isDigit), tail.dropWhile Char.isDigit, ?_, ?_,
          .inr ⟨e, sign, _, rfl, mark, form, fun none => some' (congrArg List.length none), digits_takeWhile tail⟩⟩
        · rw [List.cons_append, List.append_assoc, List.takeWhile_append_dropWhile]
        · rw [List.length_cons, List.length_append]
          omega
    · exact ⟨[], _, rfl, (if_neg mark).symm, .inl rfl⟩

/-- The numeral at the start of a text that starts with a digit, or with a point and a digit. -/
theorem numeralLength_sound (starts : startsNumber c cs = true) : ∃ numeral rest whole fraction exponent,
    c :: cs = numeral ++ rest ∧ numeral.length = numeralLength (c :: cs) ∧
      DecimalNumeral numeral whole fraction exponent := by
  have split := List.prefix_iff_eq_append.1 (List.takeWhile_prefix (l := c :: cs) Char.isDigit)
  obtain ⟨fraction, behind, split', length, point⟩ :=
    fractionLength_sound ((c :: cs).drop ((c :: cs).takeWhile Char.isDigit).length)
  obtain ⟨exponent, rest, rfl, length', power⟩ := exponentLength_sound behind
  refine ⟨_, rest, (c :: cs).takeWhile Char.isDigit, fraction, exponent, ?_, ?_,
    rfl, digits_takeWhile _, point, ?_, power⟩
  · rw [List.append_assoc, List.append_assoc, ← split', split]
  · have after : (c :: cs).drop (((c :: cs).takeWhile Char.isDigit).length + fraction.length) = exponent ++ rest := by
      rw [← List.drop_drop, split', List.drop_left]
    rw [numeralLength, ← length, after, ← length', List.length_append, List.length_append, Nat.add_assoc]
  · by_cases digit : c.isDigit = true
    · left
      rw [List.takeWhile_cons_of_pos digit]
      exact List.cons_ne_nil _ _
    · right
      rw [startsNumber, eq_false_of_ne_true digit, Bool.false_or, Bool.and_eq_true, beq_iff_eq] at starts
      obtain ⟨rfl, next⟩ := starts
      cases cs with
      | nil => cases next
      | cons d ds =>
        -- the fraction starts with the point and takes the digit behind it
        rw [List.takeWhile_cons_of_neg digit] at split' length
        have next : d.isDigit = true := next
        have more : fraction.length = 1 + ((d :: ds).takeWhile Char.isDigit).length := length
        rw [List.takeWhile_cons_of_pos next] at more
        rcases point with rfl | ⟨ds', rfl, -⟩
        · simp at more
        · cases ds' with
          | nil => simp at more
          | cons d' ds' => exact ⟨d', ds', rfl⟩

/-! ## Where a token may end -/

/-- A blank comes first, or nothing. -/
def Apart (rest : List Char) : Prop := ∀ c ∈ rest.head?, isSpace c = true

theorem isSpace_iff : isSpace c = true ↔ c = ' ' ∨ c = '\t' ∨ c = '\r' ∨ c = '\n' := by
  simp [isSpace, or_assoc]

theorem Apart.cases (apart : Apart rest) :
    rest = [] ∨ ∃ more, rest = ' ' :: more ∨ rest = '\t' :: more ∨ rest = '\r' :: more ∨ rest = '\n' :: more := by
  cases rest with
  | nil => exact .inl rfl
  | cons c more => rcases isSpace_iff.1 (apart c rfl) with rfl | rfl | rfl | rfl <;> exact .inr ⟨more, by simp⟩

theorem Apart.stops (apart : Apart rest) {p : Char → Bool} (stop : ∀ c, isSpace c = true → p c = false)
    (inside : ∀ c ∈ cs, p c = true) : (cs ++ rest).takeWhile p = cs := by
  rw [List.takeWhile_append_of_pos inside]
  cases rest with
  | nil => exact List.append_nil cs
  | cons c rest => rw [List.takeWhile_cons_of_neg (by simp [stop c (apart c rfl)]), List.append_nil]

/-! A numeral that is there is found whole. -/

theorem fractionLength_of_point {fraction : List Char} (point : fraction = [] ∨ ∃ ds, fraction = '.' :: ds ∧ Digits ds)
    (stop : ∀ c ∈ rest.head?, c.isDigit = false ∧ c ≠ '.') : fractionLength (fraction ++ rest) = fraction.length := by
  rcases point with rfl | ⟨ds, rfl, digits⟩
  · cases rest with
    | nil => rfl
    | cons c rest => simp [fractionLength, (stop c rfl).2]
  · rw [List.cons_append, fractionLength, takeWhile_digits digits fun c mem => (stop c mem).1, List.length_cons,
      Nat.add_comm]

theorem exponentLength_of_power {exponent : List Char} (power : exponent = [] ∨ ∃ e sign ds,
      exponent = e :: (sign ++ ds) ∧ (e = 'e' ∨ e = 'E') ∧ (sign = [] ∨ sign = ['+'] ∨ sign = ['-']) ∧
        ds ≠ [] ∧ Digits ds)
    (stop : ∀ c ∈ rest.head?, c.isDigit = false ∧ c ≠ 'e' ∧ c ≠ 'E') :
    exponentLength (exponent ++ rest) = exponent.length := by
  rcases power with rfl | ⟨e, sign, ds, rfl, mark, form, some', digits⟩
  · cases rest with
    | nil => rfl
    | cons c rest => simp [exponentLength, (stop c rfl).2.1, (stop c rfl).2.2]
  · have found := takeWhile_digits digits fun c mem => (stop c mem).1
    have length : (e :: (sign ++ ds)).length = 1 + sign.length + ds.length := by
      rw [List.length_cons, List.length_append, Nat.add_comm, Nat.add_assoc]
    have more : ds.length ≠ 0 := fun none => some' (List.length_eq_zero_iff.1 none)
    rw [List.cons_append, List.append_assoc, length]
    simp only [exponentLength, if_pos mark]
    rcases form with rfl | rfl | rfl
    · -- the first digit is no sign
      obtain ⟨d, ds, rfl⟩ := List.exists_cons_of_ne_nil some'
      have digit : d.isDigit = true := digits d (.head _)
      split
      · rename_i plus
        cases plus
        cases digit
      · rename_i minus
        cases minus
        cases digit
      · rw [List.nil_append, List.drop_zero, found, if_neg more]
        rfl
    · show (if ((ds ++ rest).takeWhile Char.isDigit).length = 0 then 0 else _) = _
      rw [if_neg (found.symm ▸ more)]
      exact congrArg (1 + 1 + List.length ·) found
    · show (if ((ds ++ rest).takeWhile Char.isDigit).length = 0 then 0 else _) = _
      rw [if_neg (found.symm ▸ more)]
      exact congrArg (1 + 1 + List.length ·) found

/-- The numeral at the start of a text, if it ends there. -/
theorem numeralLength_of_numeral {numeral whole fraction exponent : List Char}
    (form : DecimalNumeral numeral whole fraction exponent) (apart : Apart rest) :
    numeralLength (numeral ++ rest) = numeral.length := by
  obtain ⟨rfl, digits, point, -, power⟩ := form
  have blank {c : Char} (mem : c ∈ rest.head?) : c.isDigit = false ∧ c ≠ '.' ∧ c ≠ 'e' ∧ c ≠ 'E' := by
    rcases isSpace_iff.1 (apart c mem) with rfl | rfl | rfl | rfl <;> decide
  have letter {c : Char} (mem : c ∈ (exponent ++ rest).head?) : c.isDigit = false ∧ c ≠ '.' := by
    rcases power with rfl | ⟨e, sign, ds, rfl, rfl | rfl, -⟩
    · exact ⟨(blank mem).1, (blank mem).2.1⟩
    · cases mem
      decide
    · cases mem
      decide
  have mark {c : Char} (mem : c ∈ (fraction ++ (exponent ++ rest)).head?) : c.isDigit = false := by
    rcases point with rfl | ⟨ds, rfl, -⟩
    · exact (letter mem).1
    · cases mem
      decide
  have exponent' := exponentLength_of_power power fun c mem => ⟨(blank mem).1, (blank mem).2.2⟩
  have fraction' := fractionLength_of_point point fun c mem => letter mem
  rw [List.append_assoc, List.append_assoc, numeralLength, takeWhile_digits digits fun c mem => mark mem,
    List.drop_left, fraction', ← List.drop_drop, List.drop_left, List.drop_left, exponent', List.length_append,
    List.length_append, Nat.add_assoc]

end ScriptEngine.Lexer
