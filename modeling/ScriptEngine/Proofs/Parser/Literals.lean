import ScriptEngine.Proofs.Number.Sign
import ScriptEngine.Proofs.Parser.Regular

/-!
# The number literals of a program

A numeral has no sign: the `-` of `-1` is an operator. So the sign bit of every number literal is clear,
and equality tells the literals of a program apart.
-/

namespace ScriptEngine

namespace Lexer

open Number

/-- What a piece of text reads as; if that is a number, its sign bit is clear. -/
def Piece.Unsigned (p : Piece) : Prop := ∀ n, p.kind = some (.number n) → isNegative n = false

theorem numberPiece_unsigned {lexeme : List Char} {value : Option Float} {p : Piece}
    (unsigned : ∀ n, value = some n → isNegative n = false) (h : numberPiece lexeme value = .ok p) :
    p.Unsigned := by
  unfold numberPiece at h
  split at h
  · cases h
    rintro n ⟨⟩
    exact unsigned _ rfl
  · cases h

theorem isNegative_decimal? {cs : List Char} {n : Float} (plus : cs.head? ≠ some '-')
    (h : decimal? cs = some n) : isNegative n = false := by
  unfold decimal? at h
  split at h
  · exact absurd rfl plus
  · obtain ⟨numeral, -, rfl⟩ := Option.map_eq_some_iff.1 h
    exact isNegative_ofDecimal ..
  · obtain ⟨numeral, -, rfl⟩ := Option.map_eq_some_iff.1 h
    exact isNegative_ofDecimal ..

theorem decimalNumber_unsigned {c : Char} {cs : List Char} {p : Piece} (plus : c ≠ '-')
    (h : decimalNumber (c :: cs) = .ok p) : p.Unsigned := by
  refine numberPiece_unsigned (fun n value => isNegative_decimal? ?_ value) h
  cases numeralLength (c :: cs) with
  | zero => simp
  | succ length => simpa using plus

theorem number_unsigned {c : Char} {cs : List Char} {p : Piece} (plus : c ≠ '-')
    (h : number (c :: cs) = .ok p) : p.Unsigned := by
  unfold number at h
  split at h
  · dsimp only at h
    split at h
    · refine numberPiece_unsigned (fun n value => ?_) h
      obtain ⟨natural, -, rfl⟩ := Option.map_eq_some_iff.1 value
      exact isNegative_ofNat natural
    · exact decimalNumber_unsigned plus h
  · exact decimalNumber_unsigned plus h

theorem word_unsigned (cs : List Char) : (word cs).Unsigned := by
  intro n same
  unfold word at same
  cases known : Keyword.ofText? (String.ofList (cs.takeWhile isNamePart)) <;>
    simp [known] at same

theorem symbolPiece_unsigned {c : Char} {cs : List Char} {p : Piece}
    (h : symbolPiece c cs = .ok p) : p.Unsigned := by
  unfold symbolPiece at h
  split at h
  · cases h
    rintro n ⟨⟩
  · cases h

theorem comment_unsigned {cs : List Char} {p : Piece} (h : comment cs = .ok p) : p.Unsigned := by
  have blank : p.kind = none := by
    unfold comment at h
    split at h
    · split at h
      · cases closed : longBracket _ _ _ with
        | error e =>
          rw [closed] at h
          cases h
        | ok r =>
          rw [closed] at h
          cases h
          rfl
      · cases h
        rfl
    · cases h
      rfl
  rw [Piece.Unsigned, blank]
  rintro n ⟨⟩

theorem quotedString_unsigned {quote : Char} {cs : List Char} {p : Piece}
    (h : quotedString quote cs = .ok p) : p.Unsigned := by
  unfold quotedString at h
  split at h
  · cases h
  · split at h
    · cases h
      rintro n ⟨⟩
    · cases h

theorem piece_unsigned {c : Char} {cs : List Char} {p : Piece} (h : piece c cs = .ok p) :
    p.Unsigned := by
  unfold piece at h
  split at h
  · cases h
    rintro n ⟨⟩
  · split at h
    · rename_i starts
      refine number_unsigned ?_ h
      rintro rfl
      simp [startsNumber] at starts
    · split at h
      · cases h
        exact word_unsigned _
      · split at h
        · exact quotedString_unsigned h
        · split at h
          · exact comment_unsigned h
          · split at h
            · cases closed : longBracket _ _ _ with
              | error e =>
                rw [closed] at h
                cases h
              | ok r =>
                rw [closed] at h
                cases h
                rintro n ⟨⟩
            · exact symbolPiece_unsigned h
          · exact symbolPiece_unsigned h

theorem tokensFrom_unsigned {cs : List Char} {seen tokens : Array Token} {position : Position}
    {skip : Nat} (unsigned : Numbered (isNegative · = false) seen.toList)
    (h : tokensFrom seen position skip cs = .ok tokens) :
    Numbered (isNegative · = false) tokens.toList := by
  have push {seen : Array Token} {kind : Kind} {position : Position}
      (unsigned : Numbered (isNegative · = false) seen.toList)
      (new : ∀ n, kind = .number n → isNegative n = false) :
      Numbered (isNegative · = false) (seen.push ⟨kind, position⟩).toList := by
    intro t mem n same
    rw [Array.toList_push, List.mem_append, List.mem_singleton] at mem
    rcases mem with mem | rfl
    · exact unsigned t mem n same
    · exact new n same
  induction cs generalizing seen position skip with
  | nil =>
    cases h
    exact push unsigned (by rintro n ⟨⟩)
  | cons c cs ih =>
    unfold tokensFrom at h
    split at h
    · exact ih unsigned h
    · split at h
      · exact ih unsigned h
      · rename_i kind tail found
        refine ih (push unsigned fun n same => ?_) h
        exact piece_unsigned found n (congrArg some same)
      · cases h

end Lexer

namespace Parser

/-- A parsed program is regular, and the sign bits of its number literals are clear. -/
theorem parse_unsigned {source : String} {body : Block} (parsed : parse source = .ok body) :
    body.Regular (Number.isNegative · = false) := by
  unfold parse at parsed
  cases lexed : Lexer.tokens source with
  | error e => simp [lexed, Bind.bind, Except.bind] at parsed
  | ok tokens =>
    simp only [lexed, Bind.bind, Except.bind] at parsed
    exact parseTokens_regular (Lexer.tokensFrom_unsigned (by simp [Numbered]) lexed) parsed

end Parser

end ScriptEngine
