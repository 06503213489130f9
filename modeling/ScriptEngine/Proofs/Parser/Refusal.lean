import ScriptEngine.Proofs.Parser.WellFormed

/-!
# Where the parser stops

A parser that succeeds has gone over some of the tokens and not over the end of the text. One that fails stops at
a token that it refuses, or at an expression that cannot be assigned to (`Stopped`). The allowance of steps never
runs out: sixteen steps for each token that is left are more than the rules need between two tokens
(`parseTokens_stopped`).
-/

set_option linter.dupNamespace false

namespace ScriptEngine

/-- A kind of which there is one token only. -/
def Kind.isFixed : Kind → Bool
  | .keyword _ | .symbol _ | .eof => true
  | _ => false

namespace Parser

/-- The flaw may be found at a token of this kind. -/
inductive Refuses : Kind → Flaw → Prop
  | expected {want got} (fixed : want.isFixed = true) : Refuses got (.expected want got)
  | expectedName {got} : Refuses got (.expectedName got)
  | unexpectedSymbol {got} : Refuses got (.unexpectedSymbol got)
  | expectedArguments {got} : Refuses got (.expectedArguments got)
  | returnNotLast {got} (more : endsBlock got = false) : Refuses got .returnNotLast
  | notStatement {got} : Refuses got .notStatement

/-- The error is reported at one of the tokens, which is refused, or for an expression that cannot be assigned to. -/
inductive Stopped (s : List Token) : SourceError → Prop
  | token {token rest flaw} (there : token :: rest <:+ s) (refuses : Refuses token.kind flaw) :
      Stopped s ⟨token.position.line, token.position.column, flaw⟩
  | target {line} : Stopped s ⟨line, 0, .notAssignable⟩

/-- The tokens go up to the end of the text. -/
def Ended (s : List Token) : Prop := ∃ last, s.getLast? = some last ∧ last.kind = .eof

/-- On the tokens `s`, the parser gives a result and goes on to tokens that satisfy `Q`, or it stops at one of them. -/
def Answers {α : Type} (p : Parser α) (s : List Token) (Q : α → List Token → Prop) : Prop :=
  match p s with
  | .ok (a, t) => Ended t ∧ t <:+ s ∧ Q a t
  | .error e => Stopped s e

variable {α β : Type} {s t : List Token} {e : SourceError} {kind : Kind} {flaw : Flaw}

theorem Stopped.mono (stopped : Stopped t e) (behind : t <:+ s) : Stopped s e := by
  cases stopped with
  | token there refuses => exact .token (there.trans behind) refuses
  | target => exact .target

namespace Ended

theorem ne_nil (ended : Ended s) : s ≠ [] := by
  rintro rfl
  obtain ⟨last, found, -⟩ := ended
  cases found

theorem length_pos (ended : Ended s) : 0 < s.length := List.length_pos_of_ne_nil ended.ne_nil

theorem of_suffix (ended : Ended s) (behind : t <:+ s) (some' : t ≠ []) : Ended t := by
  obtain ⟨front, rfl⟩ := behind
  obtain ⟨last, found, eof⟩ := ended
  exact ⟨last, (List.getLast?_append_of_ne_nil front some').symm.trans found, eof⟩

/-- Another token follows one that is not the end. -/
theorem cases_next (ended : Ended s) (inside : nextKind s ≠ .eof) :
    ∃ token next rest, s = token :: next :: rest ∧ Ended (next :: rest) := by
  obtain ⟨token, rest, rfl⟩ := List.exists_cons_of_ne_nil ended.ne_nil
  cases rest with
  | nil =>
    obtain ⟨last, found, eof⟩ := ended
    cases found
    exact absurd eof inside
  | cons next rest =>
    exact ⟨token, next, rest, rfl, ended.of_suffix (List.suffix_cons token _) (List.cons_ne_nil _ _)⟩

end Ended

namespace Answers

theorem pure {a : α} {Q : α → List Token → Prop} (ended : Ended s) (h : Q a s) :
    Answers (Pure.pure a : Parser α) s Q := ⟨ended, List.suffix_rfl, h⟩

theorem bind {p : Parser α} {f : α → Parser β} {P : α → List Token → Prop} {Q : β → List Token → Prop}
    (first : Answers p s P) (next : ∀ a t, Ended t → P a t → Answers (f a) t Q) : Answers (p >>= f) s Q := by
  unfold Answers at first ⊢
  simp only [Bind.bind, StateT.bind, Except.bind]
  cases ran : p s with
  | error e =>
    rw [ran] at first
    exact first
  | ok r =>
    obtain ⟨a, t⟩ := r
    rw [ran] at first
    obtain ⟨ended, behind, h⟩ := first
    have second := next a t ended h
    unfold Answers at second
    dsimp only
    cases ran' : f a t with
    | error e =>
      rw [ran'] at second
      exact second.mono behind
    | ok r =>
      rw [ran'] at second
      exact ⟨second.1, second.2.1.trans behind, second.2.2⟩

theorem mono {p : Parser α} {P Q : α → List Token → Prop} (h : Answers p s P) (weaker : ∀ a t, P a t → Q a t) :
    Answers p s Q := by
  unfold Answers at h ⊢
  cases ran : p s with
  | error e => rw [ran] at h; exact h
  | ok r => rw [ran] at h; exact ⟨h.1, h.2.1, weaker _ _ h.2.2⟩

theorem map {p : Parser α} {f : α → β} {Q : List Token → Prop} (h : Answers p s fun _ t => Q t) :
    Answers (f <$> p) s fun _ t => Q t :=
  h.bind fun _ _ ended next => .pure ended next

theorem ite {c : Prop} [Decidable c] {p q : Parser α} {Q : α → List Token → Prop} (yes : c → Answers p s Q)
    (no : ¬c → Answers q s Q) : Answers (if c then p else q) s Q := by
  split
  · exact yes ‹_›
  · exact no ‹_›

/-! ## Single tokens -/

variable {Q : β → List Token → Prop}

theorem fail {Q : α → List Token → Prop} (ended : Ended s) (refuses : Refuses (nextKind s) flaw) :
    Answers (Parser.fail flaw : Parser α) s Q := by
  obtain ⟨token, rest, rfl⟩ := List.exists_cons_of_ne_nil ended.ne_nil
  exact Stopped.token (List.suffix_refl _) refuses

theorem peek {f : Kind → Parser β} (next : Answers (f (nextKind s)) s Q) : Answers (Parser.peek >>= f) s Q := by
  cases s <;> exact next

theorem peekSecond {f : Kind → Parser β} (next : Answers (f (nextKind s.tail)) s Q) :
    Answers (Parser.peekSecond >>= f) s Q := by
  rcases s with _ | ⟨token, _ | ⟨second, rest⟩⟩ <;> exact next

theorem line {f : Nat → Parser β} (next : ∀ n, Answers (f n) s Q) : Answers (Parser.line >>= f) s Q := by
  cases s with
  | nil => exact next _
  | cons token rest => exact next _

theorem advance_answers (ended : Ended s) (inside : nextKind s ≠ .eof) : Answers Parser.advance s fun _ t =>
    t = s.tail ∧ t.length + 1 = s.length := by
  obtain ⟨token, next, rest, rfl, behind⟩ := ended.cases_next inside
  exact ⟨behind, List.suffix_cons token _, rfl, rfl⟩

theorem advance {f : Unit → Parser β} (ended : Ended s) (inside : nextKind s ≠ .eof)
    (next : Ended s.tail → s.tail.length + 1 = s.length → Answers (f ()) s.tail Q) :
    Answers (Parser.advance >>= f) s Q := by
  refine (advance_answers ended inside).bind fun _ t ended' moved => ?_
  obtain ⟨rfl, length⟩ := moved
  exact next ended' length

theorem eat_answers (ended : Ended s) (inside : kind ≠ .eof) : Answers (Parser.eat kind) s fun b t =>
    b = true ∧ t.length + 1 = s.length ∨ b = false ∧ t = s := by
  refine .peek (.ite (fun same => ?_) fun _ => .pure ended (.inr ⟨rfl, rfl⟩))
  exact .advance ended (same ▸ inside) fun ended' length => .pure ended' (.inl ⟨rfl, length⟩)

/-- A token of a kind may be there or not. -/
theorem eat {p q : Parser β} (ended : Ended s) (inside : kind ≠ .eof)
    (yes : ∀ t, Ended t → t.length + 1 = s.length → Answers p t Q) (no : Answers q s Q) :
    Answers (Parser.eat kind >>= fun b => if b = true then p else q) s Q := by
  refine (eat_answers ended inside).bind fun b t ended' found => ?_
  rcases found with ⟨rfl, length⟩ | ⟨rfl, rfl⟩
  · exact yes t ended' length
  · exact no

theorem expect_answers (ended : Ended s) (fixed : kind.isFixed = true) (inside : kind ≠ .eof) :
    Answers (Parser.expect kind) s fun _ t => t.length + 1 = s.length := by
  refine .peek (.ite (fun same => ?_) fun _ => .fail ended (.expected fixed))
  exact (advance_answers ended (same ▸ inside)).mono fun _ _ moved => moved.2

theorem expect {f : Unit → Parser β} (ended : Ended s) (fixed : kind.isFixed = true) (inside : kind ≠ .eof)
    (next : ∀ t, Ended t → t.length + 1 = s.length → Answers (f ()) t Q) : Answers (Parser.expect kind >>= f) s Q :=
  (expect_answers ended fixed inside).bind fun _ => next

theorem expectName_answers (ended : Ended s) : Answers Parser.expectName s fun _ t => t.length + 1 = s.length := by
  refine .peek ?_
  split
  · rename_i name same
    exact .advance ended (by simp [same]) fun ended' length => .pure ended' length
  · exact .fail ended .expectedName

theorem expectName {f : String → Parser β} (ended : Ended s)
    (next : ∀ name t, Ended t → t.length + 1 = s.length → Answers (f name) t Q) :
    Answers (Parser.expectName >>= f) s Q :=
  (expectName_answers ended).bind next

theorem skipSemicolons {f : Unit → Parser β} (ended : Ended s)
    (next : ∀ t, Ended t → t.length ≤ s.length → Answers (f ()) t Q) : Answers (Parser.skipSemicolons >>= f) s Q := by
  have skipped : Answers Parser.skipSemicolons s fun _ t => t.length ≤ s.length := by
    have behind := List.dropWhile_suffix (l := s) (decide <| ·.kind = .symbol .semicolon)
    refine ⟨ended.of_suffix behind fun none => ?_, behind, behind.length_le⟩
    obtain ⟨last, found, eof⟩ := ended
    have all := List.dropWhile_eq_nil_iff.1 none last (List.mem_of_getLast? found)
    simp [eof] at all
  exact skipped.bind fun _ => next

end Answers

/-! ## Lists of names -/

theorem namesAfter_answers {separator : Kind} (inside : separator ≠ .eof) (n : Nat) (seen : List String)
    (ended : Ended s) (fuel : 16 * s.length ≤ n) : Answers (namesAfter separator n seen) s fun _ t =>
      t.length ≤ s.length := by
  induction n generalizing seen s with
  | zero =>
    have := ended.length_pos
    omega
  | succ n ih =>
    refine .eat ended inside (fun t ended₁ length₁ => ?_) (.pure ended (Nat.le_refl _))
    refine .expectName ended₁ fun name u ended₂ length₂ => ?_
    exact (ih (name :: seen) ended₂ (by omega)).mono fun _ _ h => by omega

theorem nameList_answers (n : Nat) (ended : Ended s) (fuel : 16 * s.length ≤ n) :
    Answers (nameList n) s fun _ t => t.length < s.length := by
  have inside : Kind.symbol .comma ≠ .eof := by simp
  refine .expectName ended fun name t ended₁ length₁ => ?_
  exact (namesAfter_answers inside n [name] ended₁ (by omega)).mono fun _ _ h => by omega

theorem parameters_answers (n : Nat) (seen : List String) (ended : Ended s) (fuel : 16 * s.length ≤ n) :
    Answers (parameters n seen) s fun _ t => t.length < s.length := by
  induction n generalizing seen s with
  | zero =>
    have := ended.length_pos
    omega
  | succ n ih =>
    refine .eat ended (by simp) (fun t ended₁ length₁ => .pure ended₁ (by omega)) ?_
    refine .expectName ended fun name t ended₁ length₁ => ?_
    refine .eat ended₁ (by simp) (fun u ended₂ length₂ => ?_) (.pure ended₁ (by omega))
    exact (ih (name :: seen) ended₂ (by omega)).mono fun _ _ h => by omega

theorem parameterList_answers (n : Nat) (ended : Ended s) (fuel : 16 * s.length ≤ n) :
    Answers (parameterList n) s fun _ t => t.length < s.length := by
  refine .expect ended rfl (by simp) fun t ended₁ length₁ => .peek (.ite (fun _ => ?_) fun _ => ?_)
  · exact .bind (P := fun _ u => u = t) (.pure ended₁ rfl) fun _ u ended₂ same =>
      .expect ended₂ rfl (by simp) fun v ended₃ length₃ => .pure ended₃ (by subst same; omega)
  · exact (parameters_answers n [] ended₁ (by omega)).bind fun _ u ended₂ length₂ =>
      .expect ended₂ rfl (by simp) fun v ended₃ length₃ => .pure ended₃ (by omega)

theorem functionName_answers (n : Nat) (ended : Ended s) (fuel : 16 * s.length ≤ n) :
    Answers (functionName n) s fun _ t => t.length < s.length := by
  have inside : Kind.symbol .dot ≠ .eof := by simp
  refine .expectName ended fun root t ended₁ length₁ => ?_
  refine (namesAfter_answers inside n [] ended₁ (by omega)).bind fun fields u ended₂ length₂ => ?_
  refine .eat ended₂ (by simp) (fun v ended₃ length₃ => ?_) ?_
  · exact (Answers.expectName_answers ended₃).map.bind fun method w ended₄ length₄ => .pure ended₄ (by omega)
  · exact .bind (P := fun _ v => v = u) (.pure ended₂ rfl) fun _ v ended₃ same => .pure ended₃ (by subst same; omega)

/-! ## Every rule -/

/-- With an allowance of `n` steps, every rule answers on as many tokens as a sixteenth of the allowance. A rule
that starts with another one needs a step more than that one, before any token is passed. -/
structure Suffices (n : Nat) : Prop where
  block : ∀ s, Ended s → 16 * s.length + 5 ≤ n → Answers (block n) s fun _ t => t.length ≤ s.length
  statements : ∀ s seen, Ended s → 16 * s.length + 4 ≤ n → Answers (statements n seen) s fun _ t =>
    t.length ≤ s.length
  returnStatement : ∀ s, Ended s → 16 * s.length ≤ n → Answers (returnStatement n) s fun _ t => t.length < s.length
  statement : ∀ s, Ended s → 16 * s.length + 3 ≤ n → Answers (statement n) s fun _ t => t.length < s.length
  conditional : ∀ s, Ended s → 16 * s.length + 5 ≤ n → Answers (conditional n) s fun _ t => t.length < s.length
  moreClauses : ∀ s seen, Ended s → 16 * s.length ≤ n → Answers (moreClauses n seen) s fun _ t =>
    t.length ≤ s.length
  loopBody : ∀ s, Ended s → 16 * s.length ≤ n → Answers (loopBody n) s fun _ t => t.length < s.length
  numericFor : ∀ s var line, Ended s → 16 * s.length + 5 ≤ n → Answers (numericFor n var line) s fun _ t =>
    t.length < s.length
  genericFor : ∀ s first line, Ended s → 16 * s.length + 1 ≤ n → Answers (genericFor n first line) s fun _ t =>
    t.length < s.length
  expressionStatement : ∀ s line, Ended s → 16 * s.length + 2 ≤ n →
    Answers (expressionStatement n line) s fun _ t => t.length < s.length
  moreTargets : ∀ s seen, Ended s → 16 * s.length ≤ n → Answers (moreTargets n seen) s fun _ t =>
    t.length ≤ s.length
  functionBody : ∀ s first line, Ended s → 16 * s.length + 1 ≤ n → Answers (functionBody n first line) s fun _ t =>
    t.length < s.length
  expressions : ∀ s, Ended s → 16 * s.length + 5 ≤ n → Answers (expressions n) s fun _ t => t.length < s.length
  moreExpressions : ∀ s seen, Ended s → 16 * s.length ≤ n → Answers (moreExpressions n seen) s fun _ t =>
    t.length ≤ s.length
  expression : ∀ s power, Ended s → 16 * s.length + 4 ≤ n → Answers (expression n power) s fun _ t =>
    t.length < s.length
  moreOperands : ∀ s power lhs, Ended s → 16 * s.length ≤ n → Answers (moreOperands n power lhs) s fun _ t =>
    t.length ≤ s.length
  operand : ∀ s, Ended s → 16 * s.length + 3 ≤ n → Answers (operand n) s fun _ t => t.length < s.length
  simple : ∀ s, Ended s → 16 * s.length + 2 ≤ n → Answers (simple n) s fun _ t => t.length < s.length
  suffixed : ∀ s, Ended s → 16 * s.length + 1 ≤ n → Answers (suffixed n) s fun _ t => t.length < s.length
  suffixes : ∀ s e, Ended s → 16 * s.length + 2 ≤ n → Answers (suffixes n e) s fun _ t => t.length ≤ s.length
  primary : ∀ s, Ended s → 16 * s.length ≤ n → Answers (primary n) s fun _ t => t.length < s.length
  arguments : ∀ s, Ended s → 16 * s.length + 1 ≤ n → Answers (arguments n) s fun _ t => t.length < s.length
  tableConstructor : ∀ s, Ended s → 16 * s.length ≤ n → Answers (tableConstructor n) s fun _ t =>
    t.length < s.length
  tableFields : ∀ s seen, Ended s → 16 * s.length + 6 ≤ n → Answers (tableFields n seen) s fun _ t =>
    t.length ≤ s.length
  tableField : ∀ s, Ended s → 16 * s.length + 5 ≤ n → Answers (tableField n) s fun _ t => t.length < s.length

namespace Suffices

/-- Tokens that go up to the end are one at least, so without steps nothing is asked. -/
theorem zero : Suffices 0 := by
  constructor <;> intros <;> rename_i ended fuel <;> exact absurd ended.length_pos (by omega)

variable {n : Nat}

theorem block_succ (h : Suffices n) (s : List Token) (ended : Ended s) (fuel : 16 * s.length + 5 ≤ n + 1) :
    Answers (Parser.block (n + 1)) s fun _ t => t.length ≤ s.length := by
  rw [Parser.block]
  exact .line fun _ => (h.statements s [] ended (by omega)).bind fun _ t ended₁ length₁ => .pure ended₁ length₁

theorem statements_succ (h : Suffices n) (s : List Token) (seen : List Stmt) (ended : Ended s)
    (fuel : 16 * s.length + 4 ≤ n + 1) : Answers (Parser.statements (n + 1) seen) s fun _ t =>
      t.length ≤ s.length := by
  rw [Parser.statements]
  refine .skipSemicolons ended fun t ended₁ length₁ => .peek (.ite (fun _ => ?_) fun _ => .ite (fun _ => ?_) fun _ => ?_)
  · exact (h.returnStatement t ended₁ (by omega)).bind fun _ u ended₂ length₂ => .pure ended₂ (by omega)
  · exact .pure ended₁ length₁
  · refine (h.statement t ended₁ (by omega)).bind fun stmt u ended₂ length₂ => ?_
    exact (h.statements u _ ended₂ (by omega)).mono fun _ _ length₃ => by omega

theorem returnStatement_succ (h : Suffices n) (s : List Token) (ended : Ended s) (fuel : 16 * s.length ≤ n + 1) :
    Answers (Parser.returnStatement (n + 1)) s fun _ t => t.length < s.length := by
  rw [Parser.returnStatement]
  refine .line fun line => .expect ended rfl (by simp) fun t ended₁ length₁ => .peek ?_
  -- whether values are there or not, the same follows them
  have close : ∀ (values : List Expr) u, Ended u → u.length ≤ t.length → Answers (do
      let _ ← Parser.eat (.symbol .semicolon)
      if endsBlock (← Parser.peek) then Pure.pure ⟨values, line⟩ else Parser.fail .returnNotLast)
      u fun (_ : Return) v => v.length < s.length := by
    intro values u ended₂ length₂
    have inside : Kind.symbol .semicolon ≠ .eof := by simp
    refine (Answers.eat_answers ended₂ inside).bind fun _ v ended₃ found => ?_
    refine .peek (.ite (fun _ => ?_) fun more => ?_)
    · exact .pure ended₃ (by rcases found with ⟨-, length₃⟩ | ⟨-, rfl⟩ <;> omega)
    · exact .fail ended₃ (.returnNotLast (by simpa using more))
  refine .ite (fun _ => ?_) fun _ => ?_
  · exact .bind (P := fun _ u => u = t) (.pure ended₁ rfl) fun values u ended₂ same =>
      close values u ended₂ (by rw [same])
  · exact (h.expressions t ended₁ (by omega)).bind fun values u ended₂ length₂ => close values u ended₂ length₂.le

theorem statement_succ (h : Suffices n) (s : List Token) (ended : Ended s) (fuel : 16 * s.length + 3 ≤ n + 1) :
    Answers (Parser.statement (n + 1)) s fun _ t => t.length < s.length := by
  rw [Parser.statement]
  refine .line fun line => .peek ?_
  split
  case h_1 found =>
    refine .advance ended (by simp [found]) fun ended₁ length₁ => ?_
    refine (h.conditional _ ended₁ (by omega)).bind fun clause t ended₂ length₂ => ?_
    refine (h.moreClauses t [clause] ended₂ (by omega)).bind fun _ u ended₃ length₃ => ?_
    exact .expect ended₃ rfl (by simp) fun v ended₄ length₄ => .pure ended₄ (by omega)
  case h_2 found =>
    refine .advance ended (by simp [found]) fun ended₁ length₁ => ?_
    refine (h.expression _ 0 ended₁ (by omega)).bind fun cond t ended₂ length₂ => ?_
    exact (h.loopBody t ended₂ (by omega)).bind fun _ u ended₃ length₃ => .pure ended₃ (by omega)
  case h_3 => exact (h.loopBody s ended (by omega)).bind fun _ t ended₁ length₁ => .pure ended₁ length₁
  case h_4 found =>
    refine .advance ended (by simp [found]) fun ended₁ length₁ => .expectName ended₁ fun first t ended₂ length₂ => ?_
    refine .eat ended₂ (by simp) (fun u ended₃ length₃ => ?_) ?_
    · exact (h.numericFor u first line ended₃ (by omega)).mono fun _ _ length₄ => by omega
    · exact (h.genericFor t first line ended₂ (by omega)).mono fun _ _ length₃ => by omega
  case h_5 found =>
    refine .advance ended (by simp [found]) fun ended₁ length₁ => ?_
    refine (h.block _ ended₁ (by omega)).bind fun body t ended₂ length₂ => ?_
    refine .expect ended₂ rfl (by simp) fun u ended₃ length₃ => ?_
    exact (h.expression u 0 ended₃ (by omega)).bind fun _ v ended₄ length₄ => .pure ended₄ (by omega)
  case h_6 found =>
    refine .advance ended (by simp [found]) fun ended₁ length₁ => ?_
    refine (functionName_answers n ended₁ (by omega)).bind fun name t ended₂ length₂ => ?_
    exact (h.functionBody t _ line ended₂ (by omega)).bind fun _ u ended₃ length₃ => .pure ended₃ (by omega)
  case h_7 found =>
    refine .advance ended (by simp [found]) fun ended₁ length₁ => ?_
    refine .eat ended₁ (by simp) (fun t ended₂ length₂ => ?_) ?_
    · refine .expectName ended₂ fun name u ended₃ length₃ => ?_
      exact (h.functionBody u [] line ended₃ (by omega)).bind fun _ v ended₄ length₄ => .pure ended₄ (by omega)
    · refine (nameList_answers n ended₁ (by omega)).bind fun names t ended₂ length₂ => ?_
      refine .eat ended₂ (by simp) (fun u ended₃ length₃ => ?_) (.pure ended₂ (by omega))
      exact (h.expressions u ended₃ (by omega)).bind fun _ v ended₄ length₄ => .pure ended₄ (by omega)
  case h_8 found =>
    exact .advance ended (by simp [found]) fun ended₁ length₁ => .pure ended₁ (by omega)
  case h_9 => exact h.expressionStatement s line ended (by omega)

theorem conditional_succ (h : Suffices n) (s : List Token) (ended : Ended s) (fuel : 16 * s.length + 5 ≤ n + 1) :
    Answers (Parser.conditional (n + 1)) s fun _ t => t.length < s.length := by
  rw [Parser.conditional]
  refine (h.expression s 0 ended (by omega)).bind fun cond t ended₁ length₁ => ?_
  refine .expect ended₁ rfl (by simp) fun u ended₂ length₂ => ?_
  exact (h.block u ended₂ (by omega)).bind fun _ v ended₃ length₃ => .pure ended₃ (by omega)

theorem moreClauses_succ (h : Suffices n) (s : List Token) (seen : List Clause) (ended : Ended s)
    (fuel : 16 * s.length ≤ n + 1) : Answers (Parser.moreClauses (n + 1) seen) s fun _ t =>
      t.length ≤ s.length := by
  rw [Parser.moreClauses]
  refine .eat ended (by simp) (fun t ended₁ length₁ => ?_)
    (.eat ended (by simp) (fun t ended₁ length₁ => ?_) (.pure ended (Nat.le_refl _)))
  · refine (h.conditional t ended₁ (by omega)).bind fun clause u ended₂ length₂ => ?_
    exact (h.moreClauses u _ ended₂ (by omega)).mono fun _ _ length₃ => by omega
  · exact (h.block t ended₁ (by omega)).bind fun _ u ended₂ length₂ => .pure ended₂ (by omega)

theorem loopBody_succ (h : Suffices n) (s : List Token) (ended : Ended s) (fuel : 16 * s.length ≤ n + 1) :
    Answers (Parser.loopBody (n + 1)) s fun _ t => t.length < s.length := by
  rw [Parser.loopBody]
  refine .expect ended rfl (by simp) fun t ended₁ length₁ => ?_
  refine (h.block t ended₁ (by omega)).bind fun _ u ended₂ length₂ => ?_
  exact .expect ended₂ rfl (by simp) fun v ended₃ length₃ => .pure ended₃ (by omega)

theorem numericFor_succ (h : Suffices n) (s : List Token) (var : String) (line : Nat) (ended : Ended s)
    (fuel : 16 * s.length + 5 ≤ n + 1) : Answers (Parser.numericFor (n + 1) var line) s fun _ t =>
      t.length < s.length := by
  rw [Parser.numericFor]
  refine (h.expression s 0 ended (by omega)).bind fun start t ended₁ length₁ => ?_
  refine .expect ended₁ rfl (by simp) fun u ended₂ length₂ => ?_
  refine (h.expression u 0 ended₂ (by omega)).bind fun limit v ended₃ length₃ => ?_
  have close : ∀ (step : Option Expr) w, Ended w → w.length ≤ v.length → Answers (do
      let body ← Parser.loopBody n
      Pure.pure (.numericFor var start limit step body line)) w fun (_ : Stmt) x => x.length < s.length :=
    fun step w ended₄ length₄ =>
      (h.loopBody w ended₄ (by omega)).bind fun _ x ended₅ length₅ => .pure ended₅ (by omega)
  refine .eat ended₃ (by simp) (fun w ended₄ length₄ => ?_) ?_
  · exact (h.expression w 0 ended₄ (by omega)).map.bind fun step x ended₅ length₅ =>
      close step x ended₅ (by omega)
  · exact .bind (P := fun _ w => w = v) (.pure ended₃ rfl) fun step w ended₄ same =>
      close step w ended₄ (by rw [same])

theorem genericFor_succ (h : Suffices n) (s : List Token) (first : String) (line : Nat) (ended : Ended s)
    (fuel : 16 * s.length + 1 ≤ n + 1) : Answers (Parser.genericFor (n + 1) first line) s fun _ t =>
      t.length < s.length := by
  rw [Parser.genericFor]
  have inside : Kind.symbol .comma ≠ .eof := by simp
  refine (namesAfter_answers inside n [first] ended (by omega)).bind fun names t ended₁ length₁ => ?_
  refine .expect ended₁ rfl (by simp) fun u ended₂ length₂ => ?_
  refine (h.expressions u ended₂ (by omega)).bind fun values v ended₃ length₃ => ?_
  exact (h.loopBody v ended₃ (by omega)).bind fun _ w ended₄ length₄ => .pure ended₄ (by omega)

theorem expressionStatement_succ (h : Suffices n) (s : List Token) (line : Nat) (ended : Ended s)
    (fuel : 16 * s.length + 2 ≤ n + 1) : Answers (Parser.expressionStatement (n + 1) line) s fun _ t =>
      t.length < s.length := by
  rw [Parser.expressionStatement]
  refine (h.suffixed s ended (by omega)).bind fun first t ended₁ length₁ => .peek (.ite (fun _ => ?_) fun _ => ?_)
  · refine (h.moreTargets t [first] ended₁ (by omega)).bind fun targets u ended₂ length₂ => ?_
    split
    · exact Stopped.target
    · refine .expect ended₂ rfl (by simp) fun v ended₃ length₃ => ?_
      exact (h.expressions v ended₃ (by omega)).bind fun _ w ended₄ length₄ => .pure ended₄ (by omega)
  · exact .ite (fun _ => .pure ended₁ length₁) fun _ => .fail ended₁ .notStatement

theorem moreTargets_succ (h : Suffices n) (s : List Token) (seen : List Expr) (ended : Ended s)
    (fuel : 16 * s.length ≤ n + 1) : Answers (Parser.moreTargets (n + 1) seen) s fun _ t =>
      t.length ≤ s.length := by
  rw [Parser.moreTargets]
  refine .eat ended (by simp) (fun t ended₁ length₁ => ?_) (.pure ended (Nat.le_refl _))
  refine (h.suffixed t ended₁ (by omega)).bind fun target u ended₂ length₂ => ?_
  exact (h.moreTargets u _ ended₂ (by omega)).mono fun _ _ length₃ => by omega

theorem functionBody_succ (h : Suffices n) (s : List Token) (first : List String) (line : Nat) (ended : Ended s)
    (fuel : 16 * s.length + 1 ≤ n + 1) : Answers (Parser.functionBody (n + 1) first line) s fun _ t =>
      t.length < s.length := by
  rw [Parser.functionBody]
  refine (parameterList_answers n ended (by omega)).bind fun params t ended₁ length₁ => ?_
  refine (h.block t ended₁ (by omega)).bind fun body u ended₂ length₂ => ?_
  exact .expect ended₂ rfl (by simp) fun v ended₃ length₃ => .pure ended₃ (by omega)

theorem expressions_succ (h : Suffices n) (s : List Token) (ended : Ended s) (fuel : 16 * s.length + 5 ≤ n + 1) :
    Answers (Parser.expressions (n + 1)) s fun _ t => t.length < s.length := by
  rw [Parser.expressions]
  refine (h.expression s 0 ended (by omega)).bind fun first t ended₁ length₁ => ?_
  exact (h.moreExpressions t [first] ended₁ (by omega)).mono fun _ _ length₂ => by omega

theorem moreExpressions_succ (h : Suffices n) (s : List Token) (seen : List Expr) (ended : Ended s)
    (fuel : 16 * s.length ≤ n + 1) : Answers (Parser.moreExpressions (n + 1) seen) s fun _ t =>
      t.length ≤ s.length := by
  rw [Parser.moreExpressions]
  refine .eat ended (by simp) (fun t ended₁ length₁ => ?_) (.pure ended (Nat.le_refl _))
  refine (h.expression t 0 ended₁ (by omega)).bind fun value u ended₂ length₂ => ?_
  exact (h.moreExpressions u _ ended₂ (by omega)).mono fun _ _ length₃ => by omega

theorem expression_succ (h : Suffices n) (s : List Token) (power : Nat) (ended : Ended s)
    (fuel : 16 * s.length + 4 ≤ n + 1) : Answers (Parser.expression (n + 1) power) s fun _ t =>
      t.length < s.length := by
  rw [Parser.expression]
  refine (h.operand s ended (by omega)).bind fun first t ended₁ length₁ => ?_
  exact (h.moreOperands t power first ended₁ (by omega)).mono fun _ _ length₂ => by omega

theorem moreOperands_succ (h : Suffices n) (s : List Token) (power : Nat) (lhs : Expr) (ended : Ended s)
    (fuel : 16 * s.length ≤ n + 1) : Answers (Parser.moreOperands (n + 1) power lhs) s fun _ t =>
      t.length ≤ s.length := by
  rw [Parser.moreOperands]
  refine .peek ?_
  split
  case h_1 op left right found =>
    refine .ite (fun _ => .pure ended (Nat.le_refl _)) fun _ => .line fun line => ?_
    refine .advance ended (fun eof => by rw [eof] at found; cases found) fun ended₁ length₁ => ?_
    refine (h.expression _ right ended₁ (by omega)).bind fun rhs t ended₂ length₂ => ?_
    exact (h.moreOperands t power _ ended₂ (by omega)).mono fun _ _ length₃ => by omega
  case h_2 => exact .pure ended (Nat.le_refl _)

theorem operand_succ (h : Suffices n) (s : List Token) (ended : Ended s) (fuel : 16 * s.length + 3 ≤ n + 1) :
    Answers (Parser.operand (n + 1)) s fun _ t => t.length < s.length := by
  rw [Parser.operand]
  refine .line fun line => .peek ?_
  split
  case h_1 op found =>
    refine .advance ended (fun eof => by rw [eof] at found; cases found) fun ended₁ length₁ => ?_
    exact (h.expression _ _ ended₁ (by omega)).bind fun _ t ended₂ length₂ => .pure ended₂ (by omega)
  case h_2 => exact h.simple s ended (by omega)

theorem simple_succ (h : Suffices n) (s : List Token) (ended : Ended s) (fuel : 16 * s.length + 2 ≤ n + 1) :
    Answers (Parser.simple (n + 1)) s fun _ t => t.length < s.length := by
  rw [Parser.simple]
  refine .line fun line => .peek ?_
  split
  case h_1 value found =>
    exact .advance ended (fun eof => by rw [eof] at found; cases found) fun ended₁ length₁ => .pure ended₁ (by omega)
  case h_2 =>
    refine .ite (fun found => ?_) fun _ => .ite (fun _ => ?_) fun _ => h.suffixed s ended (by omega)
    · refine .advance ended (by simp [found]) fun ended₁ length₁ => ?_
      exact (h.functionBody _ [] line ended₁ (by omega)).bind fun _ t ended₂ length₂ => .pure ended₂ (by omega)
    · exact h.tableConstructor s ended (by omega)

theorem suffixed_succ (h : Suffices n) (s : List Token) (ended : Ended s) (fuel : 16 * s.length + 1 ≤ n + 1) :
    Answers (Parser.suffixed (n + 1)) s fun _ t => t.length < s.length := by
  rw [Parser.suffixed]
  refine (h.primary s ended (by omega)).bind fun first t ended₁ length₁ => ?_
  exact (h.suffixes t first ended₁ (by omega)).mono fun _ _ length₂ => by omega

theorem suffixes_succ (h : Suffices n) (s : List Token) (e : Expr) (ended : Ended s)
    (fuel : 16 * s.length + 2 ≤ n + 1) : Answers (Parser.suffixes (n + 1) e) s fun _ t =>
      t.length ≤ s.length := by
  rw [Parser.suffixes]
  have call : ∀ line, Answers (do
      let args ← Parser.arguments n
      Parser.suffixes n (.call e args line)) s fun _ t => t.length ≤ s.length := fun line =>
    (h.arguments s ended (by omega)).bind fun args t ended₁ length₁ =>
      (h.suffixes t _ ended₁ (by omega)).mono fun _ _ length₂ => by omega
  refine .line fun line => .peek ?_
  split
  case h_1 found =>
    refine .advance ended (by simp [found]) fun ended₁ length₁ => .expectName ended₁ fun name t ended₂ length₂ => ?_
    exact (h.suffixes t _ ended₂ (by omega)).mono fun _ _ length₃ => by omega
  case h_2 found =>
    refine .advance ended (by simp [found]) fun ended₁ length₁ => ?_
    refine (h.expression _ 0 ended₁ (by omega)).bind fun key t ended₂ length₂ => ?_
    refine .expect ended₂ rfl (by simp) fun u ended₃ length₃ => ?_
    exact (h.suffixes u _ ended₃ (by omega)).mono fun _ _ length₄ => by omega
  case h_3 found =>
    refine .advance ended (by simp [found]) fun ended₁ length₁ => .expectName ended₁ fun name t ended₂ length₂ => ?_
    refine (h.arguments t ended₂ (by omega)).bind fun args u ended₃ length₃ => ?_
    exact (h.suffixes u _ ended₃ (by omega)).mono fun _ _ length₄ => by omega
  case h_4 => exact call line
  case h_5 => exact call line
  case h_6 => exact call line
  case h_7 => exact .pure ended (Nat.le_refl _)

theorem primary_succ (h : Suffices n) (s : List Token) (ended : Ended s) (fuel : 16 * s.length ≤ n + 1) :
    Answers (Parser.primary (n + 1)) s fun _ t => t.length < s.length := by
  rw [Parser.primary]
  refine .line fun line => .peek ?_
  split
  case h_1 found =>
    exact .advance ended (by simp [found]) fun ended₁ length₁ => .pure ended₁ (by omega)
  case h_2 found =>
    refine .advance ended (by simp [found]) fun ended₁ length₁ => ?_
    refine (h.expression _ 0 ended₁ (by omega)).bind fun inner t ended₂ length₂ => ?_
    exact .expect ended₂ rfl (by simp) fun u ended₃ length₃ => .pure ended₃ (by omega)
  case h_3 => exact .fail ended .unexpectedSymbol

theorem arguments_succ (h : Suffices n) (s : List Token) (ended : Ended s) (fuel : 16 * s.length + 1 ≤ n + 1) :
    Answers (Parser.arguments (n + 1)) s fun _ t => t.length < s.length := by
  rw [Parser.arguments]
  refine .line fun line => .peek ?_
  split
  case h_1 found =>
    refine .advance ended (by simp [found]) fun ended₁ length₁ => ?_
    refine .eat ended₁ (by simp) (fun t ended₂ length₂ => .pure ended₂ (by omega)) ?_
    refine (h.expressions _ ended₁ (by omega)).bind fun args t ended₂ length₂ => ?_
    exact .expect ended₂ rfl (by simp) fun u ended₃ length₃ => .pure ended₃ (by omega)
  case h_2 => exact (h.tableConstructor s ended (by omega)).bind fun _ t ended₁ length₁ => .pure ended₁ length₁
  case h_3 found =>
    exact .advance ended (by simp [found]) fun ended₁ length₁ => .pure ended₁ (by omega)
  case h_4 => exact .fail ended .expectedArguments

theorem tableConstructor_succ (h : Suffices n) (s : List Token) (ended : Ended s) (fuel : 16 * s.length ≤ n + 1) :
    Answers (Parser.tableConstructor (n + 1)) s fun _ t => t.length < s.length := by
  rw [Parser.tableConstructor]
  refine .line fun line => .expect ended rfl (by simp) fun t ended₁ length₁ => ?_
  refine (h.tableFields t [] ended₁ (by omega)).bind fun fields u ended₂ length₂ => ?_
  exact .expect ended₂ rfl (by simp) fun v ended₃ length₃ => .pure ended₃ (by omega)

theorem tableFields_succ (h : Suffices n) (s : List Token) (seen : List TableField) (ended : Ended s)
    (fuel : 16 * s.length + 6 ≤ n + 1) : Answers (Parser.tableFields (n + 1) seen) s fun _ t =>
      t.length ≤ s.length := by
  rw [Parser.tableFields]
  refine .peek (.ite (fun _ => .pure ended (Nat.le_refl _)) fun _ => ?_)
  refine (h.tableField s ended (by omega)).bind fun field t ended₁ length₁ => ?_
  have more : ∀ u, Ended u → u.length + 1 = t.length →
      Answers (Parser.tableFields n (field :: seen)) u fun _ v => v.length ≤ s.length :=
    fun u ended₂ length₂ => (h.tableFields u _ ended₂ (by omega)).mono fun _ _ length₃ => by omega
  exact .eat ended₁ (by simp) more (.eat ended₁ (by simp) more (.pure ended₁ length₁.le))

theorem tableField_succ (h : Suffices n) (s : List Token) (ended : Ended s) (fuel : 16 * s.length + 5 ≤ n + 1) :
    Answers (Parser.tableField (n + 1)) s fun _ t => t.length < s.length := by
  rw [Parser.tableField]
  refine .peek (.peekSecond ?_)
  split
  case h_1 found =>
    refine .advance ended (by simp [found]) fun ended₁ length₁ => ?_
    refine (h.expression _ 0 ended₁ (by omega)).bind fun key t ended₂ length₂ => ?_
    refine .expect ended₂ rfl (by simp) fun u ended₃ length₃ => .expect ended₃ rfl (by simp) fun v ended₄ length₄ => ?_
    exact (h.expression v 0 ended₄ (by omega)).bind fun _ w ended₅ length₅ => .pure ended₅ (by omega)
  case h_2 found found' =>
    refine .advance ended (by simp [found]) fun ended₁ length₁ => ?_
    refine .advance ended₁ (by simp [found']) fun ended₂ length₂ => ?_
    exact (h.expression _ 0 ended₂ (by omega)).bind fun _ t ended₃ length₃ => .pure ended₃ (by omega)
  case h_3 => exact (h.expression s 0 ended (by omega)).bind fun _ t ended₁ length₁ => .pure ended₁ length₁

theorem succ (h : Suffices n) : Suffices (n + 1) where
  block := h.block_succ
  statements := h.statements_succ
  returnStatement := h.returnStatement_succ
  statement := h.statement_succ
  conditional := h.conditional_succ
  moreClauses := h.moreClauses_succ
  loopBody := h.loopBody_succ
  numericFor := h.numericFor_succ
  genericFor := h.genericFor_succ
  expressionStatement := h.expressionStatement_succ
  moreTargets := h.moreTargets_succ
  functionBody := h.functionBody_succ
  expressions := h.expressions_succ
  moreExpressions := h.moreExpressions_succ
  expression := h.expression_succ
  moreOperands := h.moreOperands_succ
  operand := h.operand_succ
  simple := h.simple_succ
  suffixed := h.suffixed_succ
  suffixes := h.suffixes_succ
  primary := h.primary_succ
  arguments := h.arguments_succ
  tableConstructor := h.tableConstructor_succ
  tableFields := h.tableFields_succ
  tableField := h.tableField_succ

end Suffices

theorem suffices_all (n : Nat) : Suffices n := by
  induction n with
  | zero => exact .zero
  | succ n ih => exact ih.succ

/-- The end of the text has to follow the block. Nothing can be passed there. -/
theorem chunk_answers (ended : Ended s) :
    Answers (chunk (16 * s.length + 16)) s fun _ _ => True := by
  refine ((suffices_all _).block s ended (by omega)).bind fun body t ended₁ _ => ?_
  refine .bind (P := fun _ _ => True) (.peek (.ite (fun _ => ?_) fun _ => .fail ended₁ (.expected rfl))) fun _ u ended₂ _ =>
    .pure ended₂ trivial
  match t, ended₁ with
  | [], ended₁ => exact absurd rfl ended₁.ne_nil
  | [token], ended₁ => exact ⟨ended₁, List.suffix_rfl, trivial⟩
  | token :: next :: rest, ended₁ =>
    have behind := List.suffix_cons token (next :: rest)
    exact ⟨ended₁.of_suffix behind (List.cons_ne_nil _ _), behind, trivial⟩

/-- Tokens that are no program are so because of one of them, or of an expression that is assigned to. -/
theorem parseTokens_stopped (ended : Ended s) (failed : parseTokens s = .error e) : Stopped s e := by
  have whole := chunk_answers ended
  unfold parseTokens StateT.run' at failed
  unfold Answers at whole
  cases ran : chunk (16 * s.length + 16) s with
  | error e' =>
    simp only [ran, Functor.map, Except.map, Except.error.injEq] at failed
    rw [ran] at whole
    exact failed ▸ whole
  | ok r => simp [ran, Functor.map, Except.map] at failed

end Parser

end ScriptEngine
