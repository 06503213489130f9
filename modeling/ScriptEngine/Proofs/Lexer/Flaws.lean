import ScriptEngine.Proofs.Lexer.Piece

/-!
# What the lexer reports, and where the tokens end

A text without tokens is refused with a flaw that quotes little of it: a character, at most four characters of an
escape, or a numeral (`tokens_reports`). The tokens of any other text are lexemes and then the mark of the end,
which stands behind all of them (`tokens_ends`).
-/

namespace ScriptEngine

namespace Position

/-- One place comes before another. -/
def Before (p q : Position) : Prop := p.line < q.line ∨ p.line = q.line ∧ p.column < q.column

variable {p q r : Position}

theorem Before.ne (before : p.Before q) : p ≠ q := by
  rintro rfl
  rcases before with before | ⟨-, before⟩ <;> exact Nat.lt_irrefl _ before

theorem Before.trans (first : p.Before q) (second : q.Before r) : p.Before r := by
  unfold Before at *
  omega

theorem before_after (p : Position) (c : Char) : p.Before (p.after c) := by
  unfold after
  split
  · exact .inl (Nat.lt_succ_self _)
  · exact .inr ⟨rfl, Nat.lt_add_of_pos_right c.utf8Size_pos⟩

theorem before_afterAll (p : Position) (c : Char) (cs : List Char) : p.Before (p.afterAll (c :: cs)) := by
  induction cs generalizing p c with
  | nil => exact p.before_after c
  | cons d cs ih => exact (p.before_after c).trans (ih _ d)

theorem column_afterAll (some' : 0 < p.column) (cs : List Char) : 0 < (p.afterAll cs).column := by
  induction cs generalizing p with
  | nil => exact some'
  | cons c cs ih =>
    refine ih (p := p.after c) ?_
    unfold after
    split
    · exact Nat.zero_lt_one
    · exact Nat.lt_of_lt_of_le some' (Nat.le_add_right ..)

end Position

namespace Lexer

/-- The lexer may report the flaw. -/
inductive Reports : Flaw → Prop
  | unexpectedCharacter {c} : Reports (.unexpectedCharacter c)
  | malformedNumber {text : List Char} (solid : ∀ c ∈ text, isSpace c = false) :
      Reports (.malformedNumber (String.ofList text))
  | unfinishedBracket : Reports .unfinishedBracket
  | hexEscape {digits : List Char} (few : digits.length ≤ 2) : Reports (.hexEscape (String.ofList digits))
  | decimalEscape {digits : List Char} (few : digits.length ≤ 3) : Reports (.decimalEscape (String.ofList digits))
  | escape {c} : Reports (.escape c)
  | unfinishedEscape : Reports .unfinishedEscape

variable {c quote : Char} {cs text out : List Char} {skip : Nat} {failure : Failure} {flaw : Flaw} {kind : Kind}

/-! ## Flaws of a piece -/

theorem isSpace_of_isDigit (digit : c.isDigit = true) : isSpace c = false := by
  refine Bool.eq_false_iff.2 fun space => ?_
  rcases isSpace_iff.1 space with rfl | rfl | rfl | rfl <;> cases digit

/-- There is no blank in a numeral. -/
theorem DecimalNumeral.solid {whole fraction exponent : List Char} (form : DecimalNumeral text whole fraction exponent) :
    ∀ c ∈ text, isSpace c = false := by
  obtain ⟨rfl, digits, point, -, power⟩ := form
  intro c mem
  rw [List.mem_append, List.mem_append] at mem
  rcases mem with mem | mem | mem
  · exact isSpace_of_isDigit (digits c mem)
  · rcases point with rfl | ⟨ds, rfl, digits⟩
    · cases mem
    · rcases List.mem_cons.1 mem with rfl | mem
      · rfl
      · exact isSpace_of_isDigit (digits c mem)
  · rcases power with rfl | ⟨e, sign, ds, rfl, mark, form, -, digits⟩
    · cases mem
    · rcases List.mem_cons.1 mem with rfl | mem
      · rcases mark with rfl | rfl <;> rfl
      · rcases List.mem_append.1 mem with mem | mem
        · rcases form with rfl | rfl | rfl
          · cases mem
          · cases List.mem_singleton.1 mem
            rfl
          · cases List.mem_singleton.1 mem
            rfl
        · exact isSpace_of_isDigit (digits c mem)

theorem numberPiece_reports {value : Option Float} (solid : ∀ c ∈ text, isSpace c = false)
    (failed : numberPiece text value = .error failure) : Reports failure.flaw := by
  unfold numberPiece at failed
  split at failed
  · cases failed
  · cases failed
    exact .malformedNumber solid

theorem number_reports (starts : startsNumber c cs = true) (failed : number (c :: cs) = .error failure) :
    Reports failure.flaw := by
  have decimal (failed : decimalNumber (c :: cs) = .error failure) : Reports failure.flaw := by
    obtain ⟨numeral, rest, whole, fraction, exponent, split, length, form⟩ := numeralLength_sound starts
    have taken : (c :: cs).take (numeralLength (c :: cs)) = numeral := by rw [← length, split, List.take_left]
    rw [decimalNumber, taken] at failed
    exact numberPiece_reports form.solid failed
  unfold number at failed
  split at failed
  · rename_i x rest split
    dsimp only at failed
    split at failed
    · rename_i mark
      refine numberPiece_reports (fun d mem => ?_) failed
      rcases List.mem_cons.1 mem with rfl | mem
      · rfl
      · rcases List.mem_cons.1 mem with rfl | mem
        · rcases mark.1 with rfl | rfl <;> rfl
        · refine Bool.eq_false_iff.2 fun space => ?_
          have digit := List.mem_takeWhile_imp mem
          rcases isSpace_iff.1 space with rfl | rfl | rfl | rfl <;> cases digit
    · exact decimal failed
  · exact decimal failed

theorem unescapeFrom_reports {blanks : Bool} (failed : unescapeFrom out skip blanks cs = .error flaw) :
    Reports flaw := by
  induction cs generalizing out skip blanks with
  | nil => cases failed
  | cons c rest ih =>
    cases skip with
    | succ skip => exact ih failed
    | zero =>
      unfold unescapeFrom at failed
      dsimp only at failed
      split at failed
      · exact ih failed
      · split at failed
        · exact ih failed
        · split at failed
          · cases failed
            exact .unfinishedEscape
          · rename_i e more
            have few : (more.take 2).length ≤ 2 := List.length_take_le ..
            split at failed
            · exact ih failed
            · split at failed
              · exact ih failed
              · split at failed
                · split at failed
                  · exact ih failed
                  · cases failed
                    exact .hexEscape few
                · split at failed
                  · have few' : (e :: (more.take 2).takeWhile Char.isDigit).length ≤ 3 := by
                      have := (List.takeWhile_prefix (l := more.take 2) Char.isDigit).length_le
                      rw [List.length_cons]
                      omega
                    split at failed
                    · split at failed
                      · exact ih failed
                      · cases failed
                        exact .decimalEscape few'
                    · cases failed
                      exact .decimalEscape few'
                  · cases failed
                    exact .escape

theorem quotedString_reports (failed : quotedString quote cs = .error failure) : Reports failure.flaw := by
  unfold quotedString at failed
  split at failed
  · cases failed
    exact .unexpectedCharacter
  · rename_i body _
    split at failed
    · cases failed
    · rename_i flaw found
      cases failed
      unfold unescape at found
      cases result : unescapeFrom [] 0 false body with
      | ok text =>
        rw [result] at found
        cases found
      | error e =>
        rw [result] at found
        cases found
        exact unescapeFrom_reports result

theorem longBracket_reports {level offset : Nat} (failed : longBracket level offset cs = .error failure) :
    Reports failure.flaw := by
  unfold longBracket at failed
  split at failed
  · cases failed
  · cases failed
    exact .unfinishedBracket

theorem comment_reports (failed : comment cs = .error failure) : Reports failure.flaw := by
  unfold comment at failed
  dsimp only at failed
  split at failed
  · rename_i rest
    split at failed
    · rename_i level _
      cases closes : longBracket level (level + 3) (rest.drop (level + 1)) with
      | ok inside =>
        rw [closes] at failed
        cases failed
      | error e =>
        rw [closes] at failed
        cases failed
        exact longBracket_reports closes
    · cases failed
  · cases failed

theorem symbolPiece_reports (failed : symbolPiece c cs = .error failure) : Reports failure.flaw := by
  unfold symbolPiece at failed
  split at failed
  · cases failed
  · cases failed
    exact .unexpectedCharacter

theorem piece_reports (failed : piece c cs = .error failure) : Reports failure.flaw := by
  unfold piece at failed
  split at failed
  · cases failed
  · split at failed
    · exact number_reports ‹_› failed
    · split at failed
      · cases failed
      · split at failed
        · exact quotedString_reports failed
        · split at failed
          · exact comment_reports failed
          · split at failed
            · rename_i level _
              cases closes : longBracket level (level + 1) (cs.drop (level + 1)) with
              | ok inside =>
                rw [closes] at failed
                cases failed
              | error e =>
                rw [closes] at failed
                cases failed
                exact longBracket_reports closes
            · exact symbolPiece_reports failed
          · exact symbolPiece_reports failed

/-! ## A whole text -/

variable {seen tokens : Array Token} {position : Position} {source : String} {e : SourceError}

theorem tokensFrom_reports (failed : tokensFrom seen position skip cs = .error e) : Reports e.flaw := by
  induction cs generalizing seen position skip with
  | nil => cases failed
  | cons c cs ih =>
    cases skip with
    | succ skip => exact ih failed
    | zero =>
      rw [tokensFrom] at failed
      split at failed
      · exact ih failed
      · exact ih failed
      · rename_i flaw offset found
        cases failed
        exact piece_reports found

theorem tokens_reports (failed : Lexer.tokens source = .error e) : Reports e.flaw :=
  tokensFrom_reports failed

theorem tokensFrom_ends (lexed : tokensFrom seen position skip cs = .ok tokens) :
    ∃ more : List Token, tokens.toList = seen.toList ++ (more ++ [Token.mk .eof (position.afterAll cs)]) ∧
      ∀ token ∈ more, (∃ text, Lexeme token.kind text) ∧ token.position.Before (position.afterAll cs) := by
  induction cs generalizing seen position skip with
  | nil =>
    cases lexed
    exact ⟨[], Array.toList_push .., nofun⟩
  | cons c cs ih =>
    cases skip with
    | succ skip => exact ih lexed
    | zero =>
      rw [tokensFrom] at lexed
      split at lexed
      · exact ih lexed
      · rename_i kind tail found
        obtain ⟨more, split, lexemes⟩ := ih lexed
        obtain ⟨text, _, -, -, lexeme⟩ := piece_sound found
        refine ⟨⟨kind, position⟩ :: more, ?_, List.forall_mem_cons.2 ⟨⟨⟨text, lexeme⟩, ?_⟩, lexemes⟩⟩
        · rw [split, Array.toList_push, List.append_assoc]
          rfl
        · exact position.before_afterAll c cs
      · cases lexed

/-- The tokens are lexemes and the mark of the end, which comes behind them. -/
theorem tokens_ends (lexed : Lexer.tokens source = .ok tokens) :
    ∃ (more : List Token) (last : Position), tokens.toList = more ++ [Token.mk .eof last] ∧ 0 < last.column ∧
      ∀ token ∈ more, (∃ text, Lexeme token.kind text) ∧ token.position.Before last := by
  obtain ⟨more, split, lexemes⟩ := tokensFrom_ends lexed
  exact ⟨more, _, split, Position.column_afterAll Nat.zero_lt_one source.toList, lexemes⟩

theorem Lexeme.ne_eof (lexeme : Lexeme kind text) : kind ≠ .eof := by
  cases lexeme <;> nofun

/-- There is no blank in a name. -/
theorem Lexeme.solid {s : String} (lexeme : Lexeme (.name s) text) : ' ' ∉ s.toList := by
  cases lexeme with
  | name start parts _ =>
    rw [String.toList_ofList]
    intro mem
    rcases List.mem_cons.1 mem with rfl | mem
    · cases start
    · cases parts _ mem

end Lexer

end ScriptEngine
