import Mathlib.Data.String.Basic
import ScriptEngine.Proofs.Lexer.Piece

/-!
# Where the tokens of a text stand

The tokens of a source text are the spellings that its bytes hold at certain offsets, one behind the other,
with nothing but blanks and complete comments between them, and each carries the line and the column of its
first byte (`Laid`). The lexer counts lines and columns as it goes; that these are the ones which the
newlines before a token give is `afterAll_start`.
-/

namespace ScriptEngine

/-- The place behind a text: one line more than it has newlines, and one column more than there are bytes
behind the last of them. -/
def Position.behind (before : List Char) : Position :=
  ⟨1 + before.count '\n', 1 + String.utf8Len (before.reverse.takeWhile (· != '\n'))⟩

namespace Lexer

variable {source : String} {c : Char} {cs text rest before gap : List Char} {seen : Array Token} {position : Position}
  {skip : Nat} {p : Piece}

theorem tokensFrom_skip (inside : skip ≤ cs.length) :
    tokensFrom seen position skip cs = tokensFrom seen (position.afterAll (cs.take skip)) 0 (cs.drop skip) := by
  induction skip generalizing position cs with
  | zero => rfl
  | succ skip ih =>
    cases cs with
    | nil => cases inside
    | cons c cs => exact ih (Nat.le_of_succ_le_succ inside)

/-- A piece is passed over, and its token noted if it has one. -/
theorem tokensFrom_piece (found : piece c cs = .ok p) (split : c :: cs = text ++ rest)
    (length : text.length = p.tail + 1) : tokensFrom seen position 0 (c :: cs) =
      tokensFrom (p.kind.elim seen fun kind => seen.push ⟨kind, position⟩) (position.afterAll text) 0 rest := by
  obtain ⟨kind, skip⟩ := p
  obtain ⟨d, text, rfl⟩ := List.exists_cons_of_length_eq_add_one length
  obtain ⟨rfl, rfl⟩ := List.cons.inj split
  obtain rfl : text.length = skip := Nat.succ.inj length
  have within : text.length ≤ (text ++ rest).length := by
    rw [List.length_append]
    exact Nat.le_add_right _ _
  have behind (seen : Array Token) : tokensFrom seen (position.after c) text.length (text ++ rest) =
      tokensFrom seen (position.afterAll (c :: text)) 0 rest := by
    rw [tokensFrom_skip within, List.take_left, List.drop_left]
    rfl
  rw [tokensFrom, found]
  cases kind with
  | none => exact behind seen
  | some kind => exact behind _

end Lexer

end ScriptEngine
