import ScriptEngine.Proofs.Lexer.Spans

/-!
# Lexing undoes writing

A list of token kinds is written with the usual spelling of each (`Written`), strings between double quotes,
and with a blank and any further layout between two of them (`Rendered`). The lexer reads such a text back
as those kinds, whatever the layout (`tokens_rendered`): what stands between tokens is passed over
(`tokensFrom_filler`), and a spelling that a blank follows is read whole (`tokensFrom_lexeme`).
-/

namespace ScriptEngine.Lexer

/-! ## Writing -/

/-- The body of a quoted string: a backslash before a double quote and before a backslash, `\n` for a line
break, all else for itself. -/
def escaped : List Char → List Char
  | [] => []
  | '\\' :: cs => '\\' :: '\\' :: escaped cs
  | '"' :: cs => '\\' :: '"' :: escaped cs
  | '\n' :: cs => '\\' :: 'n' :: escaped cs
  | c :: cs => c :: escaped cs

/-- How a kind of token is written; numbers by any numeral. -/
inductive Written : Kind → List Char → Prop
  | symbol (s : Symbol) : Written (.symbol s) s.text.toList
  | keyword (k : Keyword) : Written (.keyword k) k.text.toList
  | name {c cs} (start : isNameStart c = true) (parts : ∀ c ∈ cs, isNamePart c = true)
      (free : ∀ k : Keyword, k.text ≠ String.ofList (c :: cs)) : Written (.name (String.ofList (c :: cs))) (c :: cs)
  | string (s : String) : Written (.string s) ('"' :: (escaped s.toList ++ ['"']))
  | decimal {cs whole fraction exponent n} (numeral : DecimalNumeral cs whole fraction exponent)
      (value : Number.decimal? cs = some n) : Written (.number n) cs
  | hexadecimal {x digits n} (mark : x = 'x' ∨ x = 'X') (some' : digits ≠ [])
      (digits' : ∀ c ∈ digits, isHexDigit c = true) (value : Number.natural? 16 digits = some n)
      (fits : n < 2 ^ 64) : Written (.number (Float.ofNat n)) ('0' :: x :: digits)

/-- Any mix of blanks, comments that a line break ends, and closed long comments. -/
inductive Layout : List Char → Prop
  | nil : Layout []
  | blank {c gap} (space : isSpace c = true) (more : Layout gap) : Layout (c :: gap)
  | line {body gap} (comment : LineComment body) (more : Layout gap) :
      Layout ('-' :: '-' :: (body ++ '\n' :: gap))
  | long {level body gap} (closed : Closed level body) (more : Layout gap) :
      Layout ('-' :: '-' :: (opening level ++ (body ++ (closing level ++ gap))))

/-- Kinds of tokens, written one after the other with a blank and layout between them. -/
inductive Rendered : List Kind → List Char → Prop
  | nil : Rendered [] []
  | last {kind text} (written : Written kind text) : Rendered [kind] text
  | cons {kind kinds text c gap rest} (written : Written kind text) (space : isSpace c = true) (layout : Layout gap)
      (more : Rendered kinds rest) : Rendered (kind :: kinds) (text ++ c :: (gap ++ rest))

/-! ## What is written is a spelling -/

variable {c : Char} {cs text rest gap lead digits : List Char} {kind : Kind} {kinds : List Kind} {seen : Array Token}
  {position : Position}

theorem quotable_escaped (cs : List Char) : Quotable '"' (escaped cs) := by
  fun_induction escaped cs with
  | case1 => exact .nil
  | case2 cs ih => exact .escaped ih
  | case3 cs ih => exact .escaped ih
  | case4 cs ih => exact .escaped ih
  | case5 c cs backslash quote newline ih => exact .plain quote backslash newline ih

theorem unescapeFrom_escaped (out cs : List Char) : unescapeFrom out 0 false (escaped cs) = .ok (out.reverse ++ cs) := by
  fun_induction escaped cs generalizing out with
  | case1 => simp [unescapeFrom]
  | case2 cs ih => simp [unescapeFrom, controlEscape?, ih]
  | case3 cs ih => simp [unescapeFrom, controlEscape?, ih]
  | case4 cs ih => simp [unescapeFrom, controlEscape?, ih]
  | case5 c cs backslash _ _ ih =>
    have plain : c ≠ '\\' := backslash
    simp [unescapeFrom, plain, ih]

theorem unescape_escaped (s : String) : unescape (escaped s.toList) = .ok s := by
  rw [unescape, unescapeFrom_escaped]
  show Except.ok (String.ofList s.toList) = _
  rw [String.ofList_toList]

theorem isDigit_iff : c.isDigit = true ↔ 48 ≤ c.toNat ∧ c.toNat ≤ 57 := by
  simp only [Char.isDigit, Bool.and_eq_true, decide_eq_true_eq, ge_iff_le, UInt32.le_iff_toNat_le]
  rfl

theorem digitValue?_of_digit (digit : c.isDigit = true) : ∃ d, Number.digitValue? c = some d ∧ d < 10 := by
  obtain ⟨low, high⟩ := isDigit_iff.1 digit
  refine ⟨c.toNat - 48, if_pos ⟨low, high⟩, by omega⟩

theorem digitValue?_of_hex (digit : isHexDigit c = true) : ∃ d, Number.digitValue? c = some d ∧ d < 16 := by
  simp only [isHexDigit, Bool.or_eq_true, Bool.and_eq_true, decide_eq_true_eq] at digit
  rcases digit with (digit | ⟨low, high⟩) | ⟨low, high⟩
  · obtain ⟨d, value, less⟩ := digitValue?_of_digit digit
    exact ⟨d, value, by omega⟩
  · have low : 97 ≤ c.toNat := low
    have high : c.toNat ≤ 102 := high
    refine ⟨c.toNat - 87, ?_, by omega⟩
    rw [Number.digitValue?, if_neg, if_pos]
    · exact ⟨low, high.trans (by decide)⟩
    · rintro ⟨-, small⟩
      have small : c.toNat ≤ 57 := small
      omega
  · have low : 65 ≤ c.toNat := low
    have high : c.toNat ≤ 70 := high
    refine ⟨c.toNat - 55, ?_, by omega⟩
    rw [Number.digitValue?, if_neg, if_neg, if_pos]
    · exact ⟨low, high.trans (by decide)⟩
    · rintro ⟨large, -⟩
      have large : 97 ≤ c.toNat := large
      omega
    · rintro ⟨-, small⟩
      have small : c.toNat ≤ 57 := small
      omega

/-- A run of digits of a base denotes a number. -/
theorem natural?_of_digits {base : Nat} (some' : digits ≠ [])
    (values : ∀ c ∈ digits, ∃ d, Number.digitValue? c = some d ∧ d < base) :
    ∃ n, Number.natural? base digits = some n := by
  have from' (acc : Nat) : ∃ n, Number.naturalFrom? base acc digits = some n := by
    clear some'
    induction digits generalizing acc with
    | nil => exact ⟨acc, rfl⟩
    | cons c digits ih =>
      obtain ⟨d, value, less⟩ := values c (.head _)
      rw [Number.naturalFrom?, value]
      dsimp only
      rw [if_pos less]
      exact ih (fun c mem => values c (.tail _ mem)) _
  cases digits with
  | nil => exact absurd rfl some'
  | cons c digits => exact from' 0

theorem exponentPart?_of_power {exponent : List Char} (power : exponent = [] ∨ ∃ e sign ds,
      exponent = e :: (sign ++ ds) ∧ (e = 'e' ∨ e = 'E') ∧ (sign = [] ∨ sign = ['+'] ∨ sign = ['-']) ∧
        ds ≠ [] ∧ Digits ds) : ∃ n, Number.exponentPart? exponent = some n := by
  rcases power with rfl | ⟨e, sign, ds, rfl, mark, form, some', digits⟩
  · exact ⟨0, rfl⟩
  · obtain ⟨n, value⟩ := natural?_of_digits some' fun c mem => digitValue?_of_digit (digits c mem)
    simp only [Number.exponentPart?, if_pos mark]
    rcases form with rfl | rfl | rfl
    · -- the first digit is no sign
      obtain ⟨d, ds, rfl⟩ := List.exists_cons_of_ne_nil some'
      have digit : d.isDigit = true := digits d (.head _)
      split
      · rename_i minus
        cases minus
        cases digit
      · rename_i plus
        cases plus
        cases digit
      · exact ⟨n, by rw [List.nil_append, value]; rfl⟩
    · exact ⟨n, congrArg (Option.map Int.ofNat) value⟩
    · exact ⟨-(n : Int), by simp [value]⟩

/-- Every numeral denotes a number. -/
theorem decimal?_of_numeral {whole fraction exponent : List Char}
    (form : DecimalNumeral text whole fraction exponent) : ∃ n, Number.decimal? text = some n := by
  have form' := form
  obtain ⟨rfl, digits, point, some', power⟩ := form
  obtain ⟨e, value⟩ := exponentPart?_of_power power
  have letter : NoDigit exponent := by
    rcases power with rfl | ⟨e, sign, ds, rfl, rfl | rfl, -⟩ <;> simp [NoDigit]
  have mark : NoDigit (fraction ++ exponent) := by
    rcases point with rfl | ⟨ds, rfl, -⟩
    · exact letter
    · simp [NoDigit]
  have numeral : Number.numeral? (whole ++ (fraction ++ exponent)) = some ⟨whole, fraction.tail, e⟩ := by
    simp only [Number.numeral?, takeWhile_digits digits mark, dropWhile_digits digits mark]
    rcases point with rfl | ⟨ds, rfl, digits'⟩
    · have first : whole.isEmpty = false := by simpa using some'
      rw [List.nil_append]
      split
      · rename_i more
        rcases power with h | ⟨e, sign, ds, h, rfl | rfl, -⟩ <;> cases h
      · rw [value, first]
        rfl
    · have some'' : ¬(whole.isEmpty && ds.isEmpty) = true := by
        rcases some' with some' | ⟨d, ds, same⟩
        · simp [some']
        · cases same
          simp
      simp only [List.cons_append, takeWhile_digits digits' letter, dropWhile_digits digits' letter, value]
      rw [if_neg some'']
      rfl
  unfold Number.decimal?
  split
  · rename_i minus
    rw [minus] at form'
    cases form'.starts []
  · rename_i plus
    rw [plus] at form'
    cases form'.starts []
  · exact ⟨_, congrArg (Option.map Number.Numeral.value) numeral⟩

theorem unsigned?_of_natural {n : Nat} (hex : ∀ c ∈ digits, isHexDigit c = true)
    (value : Number.natural? 16 digits = some n) (fits : n < 2 ^ 64) : Number.unsigned? 16 digits = some n := by
  have bound : n ≤ 0xffffffffffffffff := Nat.le_of_lt_succ fits
  simp only [Number.unsigned?]
  split
  · exact absurd (hex _ (.head _)) (by decide)
  · rw [value, Option.filter_some, if_pos (decide_eq_true bound)]

theorem Written.lexeme (written : Written kind text) : Lexeme kind text := by
  cases written with
  | symbol s => exact .symbol s
  | keyword k => exact .keyword k
  | name start parts free => exact .name start parts free
  | string s => exact .quoted (.inl rfl) (quotable_escaped _) (unescape_escaped s)
  | decimal numeral value => exact .decimal numeral value
  | hexadecimal mark some' digits' value fits =>
    exact .hexadecimal mark some' digits' (unsigned?_of_natural digits' value fits)

theorem Layout.filler (layout : Layout gap) (rest : List Char) : Filler gap rest := by
  induction layout with
  | nil => exact .nil
  | blank space _ ih => exact .blank space ih
  | line comment _ ih => exact .line comment (fun c same => (Option.some.inj same).symm) (.blank rfl ih)
  | long closed _ ih => exact .long closed ih

/-! ## Reading back -/

/-- What stands between tokens is passed over. -/
theorem tokensFrom_filler (filler : Filler gap rest) (seen : Array Token) (position : Position) :
    ∃ behind, tokensFrom seen position 0 (gap ++ rest) = tokensFrom seen behind 0 rest := by
  induction filler generalizing position with
  | nil => exact ⟨position, rfl⟩
  | @blank c gap rest space _ ih =>
    rw [List.cons_append, tokensFrom_piece (piece_of_space space) (show c :: (gap ++ rest) = [c] ++ (gap ++ rest) from rfl) rfl]
    exact ih _
  | @line body gap rest comment ends _ ih =>
    rw [List.cons_append, List.cons_append, List.append_assoc, tokensFrom_piece (piece_of_line comment ends)
      (show _ = '-' :: '-' :: body ++ (gap ++ rest) from rfl) (by simp [Nat.add_comm])]
    exact ih _
  | @long level body gap rest closed _ ih =>
    rw [List.cons_append, List.cons_append, List.append_assoc, List.append_assoc, List.append_assoc,
      tokensFrom_piece (piece_of_long closed (gap ++ rest))
        (show _ = '-' :: '-' :: (opening level ++ (body ++ closing level)) ++ (gap ++ rest) by simp)
        (by simp [opening, closing]; omega)]
    exact ih _

/-- A spelling is read whole if a blank follows it or nothing. -/
theorem tokensFrom_lexeme (lexeme : Lexeme kind text) (apart : Apart rest) :
    tokensFrom seen position 0 (text ++ rest) =
      tokensFrom (seen.push ⟨kind, position⟩) (position.afterAll text) 0 rest := by
  obtain ⟨c, text, rfl⟩ := List.exists_cons_of_ne_nil lexeme.ne_nil
  exact tokensFrom_piece (piece_of_lexeme lexeme apart) rfl rfl

theorem tokensFrom_rendered (rendered : Rendered kinds text) (seen : Array Token) (position : Position) :
    ∃ tokens, tokensFrom seen position 0 text = .ok tokens ∧
      tokens.toList.map Token.kind = seen.toList.map Token.kind ++ (kinds ++ [Kind.eof]) := by
  induction rendered generalizing seen position with
  | nil => exact ⟨_, rfl, by simp⟩
  | @last kind text written =>
    have nothing : Apart [] := nofun
    rw [← List.append_nil text, tokensFrom_lexeme written.lexeme nothing]
    exact ⟨_, rfl, by simp⟩
  | @cons kind kinds text c gap rest written space layout _ ih =>
    have apart : Apart (c :: (gap ++ rest)) := by
      rintro d ⟨⟩
      exact space
    obtain ⟨behind, passed⟩ := tokensFrom_filler (.blank space (layout.filler rest)) (seen.push ⟨kind, position⟩)
      (position.afterAll text)
    obtain ⟨tokens, read, kinds'⟩ := ih (seen.push ⟨kind, position⟩) behind
    rw [tokensFrom_lexeme written.lexeme apart, ← List.cons_append, passed]
    exact ⟨tokens, read, by simpa using kinds'⟩

/-- Lexing undoes writing: kinds of tokens written with layout between and around them are read back as they
are, with the end of the text behind them. Every decimal numeral has a value to be read as, and so has every
run of hexadecimal digits. -/
theorem tokens_rendered :
    (∀ {kinds lead text}, Layout lead → Rendered kinds text →
      ∃ tokens, Lexer.tokens (.ofList (lead ++ text)) = .ok tokens ∧
        tokens.toList.map Token.kind = kinds ++ [.eof]) ∧
    (∀ {cs whole fraction exponent}, DecimalNumeral cs whole fraction exponent → ∃ n, Number.decimal? cs = some n) ∧
    ∀ {digits}, digits ≠ [] → (∀ c ∈ digits, isHexDigit c = true) → ∃ n, Number.natural? 16 digits = some n := by
  refine ⟨fun {kinds lead text} layout rendered => ?_, decimal?_of_numeral, fun some' hex =>
    natural?_of_digits some' fun c mem => digitValue?_of_hex (hex c mem)⟩
  obtain ⟨behind, passed⟩ := tokensFrom_filler (layout.filler text) #[] .start
  obtain ⟨tokens, read, kinds'⟩ := tokensFrom_rendered rendered #[] behind
  refine ⟨tokens, ?_, kinds'⟩
  rw [Lexer.tokens, String.toList_ofList, passed, read]

/-- Two symbols that a line comment keeps apart, a quoted line break and an unclosed-looking bracket. -/
theorem tokens_rendered_apart :
    ∃ tokens, Lexer.tokens (.ofList "- --x\n- \"\\n\"\t[".toList) = .ok tokens ∧
      tokens.toList.map Token.kind = [.symbol .minus, .symbol .minus, .string "\n", .symbol .leftBracket, .eof] := by
  have comment : LineComment ['x'] := ⟨by decide, fun level ⟨more, opens⟩ => by cases opens⟩
  have text : "- --x\n- \"\\n\"\t[".toList =
      ['-', ' ', '-', '-', 'x', '\n', '-', ' ', '"', '\\', 'n', '"', '\t', '['] := by decide
  have rendered : Rendered [.symbol .minus, .symbol .minus, .string "\n", .symbol .leftBracket]
      ['-', ' ', '-', '-', 'x', '\n', '-', ' ', '"', '\\', 'n', '"', '\t', '['] :=
    .cons (.symbol .minus) rfl (.line comment .nil)
      (.cons (.symbol .minus) rfl .nil (.cons (.string "\n") rfl .nil (.last (.symbol .leftBracket))))
  rw [text]
  obtain ⟨tokens, read, kinds⟩ := tokens_rendered.1 .nil rendered
  exact ⟨tokens, read, kinds⟩

end ScriptEngine.Lexer
