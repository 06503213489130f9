import ScriptEngine.Proofs.Lexer.Flaws
import ScriptEngine.Proofs.Parser.Refusal
import ScriptEngine.Proofs.Text.Occurrence

/-!
# When the session waits for more input

The session looks for certain words in the message of a fault. A text that is broken off, that is, one in which a
long bracket is still open or whose end the parser refuses, has them in its message, with two exceptions: an end in
the place of an operand, and an end behind an expression that is no statement. A text that is not broken off
has them when the string that the parser refuses has them (`isIncomplete_iff`).
-/

set_option linter.dupNamespace false

namespace ScriptEngine

/-- The text is no program because of its end: there is a long bracket still open, or the parser refuses the token
that marks it. -/
def BrokenOff (source : String) (e : SourceError) : Prop :=
  e.flaw = .unfinishedBracket ∨
    ∃ tokens last, Lexer.tokens source = .ok tokens ∧ tokens.toList.getLast? = some last ∧
      last.position = ⟨e.line, e.column⟩

/-- The token that a flaw's message shows. -/
def Flaw.shown? : Flaw → Option Kind
  | expected _ got | expectedName got | unexpectedSymbol got | expectedArguments got => some got
  | _ => none

/-- The words by which the session knows that a text is incomplete. -/
inductive Marker : List Char → Prop
  | gotEof : Marker ['g', 'o', 't', ' ', 'E', 'o', 'f']
  | unfinished : Marker ['u', 'n', 'f', 'i', 'n', 'i', 's', 'h', 'e', 'd', ' ', 'l', 'o', 'n', 'g']

namespace Marker

variable {words cs : List Char} {c : Char} {s : String}

theorem notMem (marker : Marker words) (other : c ∈ [':', ',', '(', ')', '\'']) : c ∉ words := by
  have all : words.all (fun c => !List.contains [':', ',', '(', ')', '\''] c) = true := by cases marker <;> rfl
  intro mem
  have none := List.all_eq_true.1 all c mem
  rw [List.contains_iff_mem.2 other] at none
  cases none

theorem blank_mem (marker : Marker words) : ' ' ∈ words := by
  cases marker <;> decide

theorem length_le (marker : Marker words) : 7 ≤ words.length := by
  cases marker <;> decide

theorem ne_nil (marker : Marker words) : words ≠ [] := by
  cases marker <;> decide

/-- Words with a blank do not stand in a text that has none. -/
theorem not_infix_of_solid (marker : Marker words) (solid : ' ' ∉ cs) : ¬words <:+: cs :=
  fun inside => solid (inside.subset marker.blank_mem)

theorem not_infix_of_length (marker : Marker words) (short : cs.length < 7) : ¬words <:+: cs := fun inside => by
  have := inside.length_le
  have := marker.length_le
  omega

theorem plain (marker : Marker words) : Text.Plain words where
  shown := by
    have all : words.all (fun c => 0x20 ≤ c.toNat && c.toNat < 0x7f && c != '"' && c != '\\') = true := by
      cases marker <;> rfl
    simpa [Text.IsPlain, and_assoc] using all
  rare := by cases marker <;> simp [Text.marks]
  second := by cases marker <;> simp

/-- The words stand in a quoted string if they stand in the string. -/
theorem infix_quoted_iff (marker : Marker words) : words <:+: (Text.quoted s).toList ↔ words <:+: s.toList :=
  Text.infix_quoted_iff marker.plain marker.ne_nil

/-! ## A token in a message -/

/-- What stands before a token in a message. -/
inductive Lead : String → Prop
  | got : Lead " got "
  | symbol : Lead "unexpected symbol "
  | want : Lead "expected "

variable {lead name : String} {k : Keyword} {symbol : Symbol} {got : Kind}

theorem not_infix_of_chars (other : occursIn words cs = false) : ¬words <:+: cs := by
  rw [← occursIn_iff, other]
  exact Bool.false_ne_true

theorem not_infix_of_text (other : occursIn words cs = false) : ¬words <:+: (String.ofList cs).toList := by
  rw [String.toList_ofList]
  exact not_infix_of_chars other

/-- The name is one word, and it does not begin like the end's. -/
def IsLabel (name : String) : Prop :=
  ∃ cs, name = String.ofList cs ∧ ' ' ∉ cs ∧ ¬['E', 'o', 'f'] <+: cs

theorem isLabel_keyword (k : Keyword) : IsLabel k.name := by
  cases k <;> refine ⟨_, rfl, ?_⟩ <;> simp

theorem isLabel_symbol (symbol : Symbol) : IsLabel symbol.name := by
  cases symbol <;> refine ⟨_, rfl, ?_⟩ <;> simp

theorem isLabel_of_mem (known : name ∈ ["Number", "Str", "Name"]) : IsLabel name := by
  rcases List.mem_cons.1 known with rfl | known
  · exact ⟨_, rfl, by simp⟩
  rcases List.mem_pair.1 known with rfl | rfl <;> exact ⟨_, rfl, by simp⟩

theorem not_infix_label (marker : Marker words) (form : Lead lead) (label : IsLabel name) :
    ¬words <:+: (lead ++ name).toList := by
  obtain ⟨cs, rfl, solid, other⟩ := label
  have apart := marker.not_infix_of_solid solid
  rw [String.toList_append, String.toList_ofList]
  cases marker <;> cases form <;> simp [List.infix_cons_iff, apart, other]

theorem infix_eof_iff (marker : Marker words) (form : Lead lead) :
    words <:+: (lead ++ "Eof").toList ↔ words = ['g', 'o', 't', ' ', 'E', 'o', 'f'] ∧ lead = " got " := by
  rw [← occursIn_iff]
  cases marker <;> cases form <;> decide

/-- A token with a text of its own has it between parentheses. -/
theorem infix_enclosed_iff (marker : Marker words) (form : Lead lead)
    (known : name ∈ ["Number", "Str", "Name"]) :
    words <:+: (lead ++ (name ++ "(" ++ s ++ ")")).toList ↔ words <:+: s.toList := by
  have outside := marker.not_infix_label form (isLabel_of_mem known)
  have split : (lead ++ (name ++ "(" ++ s ++ ")")).toList =
      (lead ++ name).toList ++ '(' :: (s.toList ++ ')' :: []) := by simp
  have opening : '(' ∉ words := marker.notMem (by decide)
  have closing : ')' ∉ words := marker.notMem (by decide)
  rw [split, infix_divide opening, infix_divide closing, or_iff_right outside, List.infix_nil,
    or_iff_left marker.ne_nil]

/-- Of the tokens, the end shows as one of the words where it is said that it was met, and a string shows
whatever it holds. -/
theorem infix_token_iff (marker : Marker words) (form : Lead lead) (solid : ∀ s, got = .name s → ' ' ∉ s.toList) :
    words <:+: (lead ++ got.debugText).toList ↔
      words = ['g', 'o', 't', ' ', 'E', 'o', 'f'] ∧ lead = " got " ∧ got = .eof ∨ ∃ s, got = .string s ∧ words <:+: s.toList := by
  cases got with
  | number n =>
    have enclosed := infix_enclosed_iff marker form (s := Number.debugText n) (show "Number" ∈ _ by decide)
    refine (iff_false_intro fun inside => ?_).trans (iff_false_intro (by simp)).symm
    exact marker.not_infix_of_solid (Number.solid_debugText n) (enclosed.1 inside)
  | name s =>
    have enclosed := infix_enclosed_iff marker form (s := Text.quoted s) (show "Name" ∈ _ by decide)
    refine (iff_false_intro fun inside => ?_).trans (iff_false_intro (by simp)).symm
    exact marker.not_infix_of_solid (solid s rfl) (marker.infix_quoted_iff.1 (enclosed.1 inside))
  | string s =>
    have enclosed := infix_enclosed_iff marker form (s := Text.quoted s) (show "Str" ∈ _ by decide)
    refine (enclosed.trans marker.infix_quoted_iff).trans ?_
    simp
  | keyword k => exact (iff_false_intro (marker.not_infix_label form (isLabel_keyword k))).trans (iff_false_intro (by simp)).symm
  | symbol symbol =>
    exact (iff_false_intro (marker.not_infix_label form (isLabel_symbol symbol))).trans (iff_false_intro (by simp)).symm
  | eof =>
    refine (marker.infix_eof_iff form).trans ?_
    simp

/-! ## Whole messages -/

variable {flaw : Flaw} {e : SourceError}

/-- The place of a flaw is not taken for the words. -/
theorem infix_message_iff (marker : Marker words) (e : SourceError) :
    words <:+: e.toFault.message.toList ↔ words <:+: e.flaw.message.toList := by
  have split : e.toFault.message.toList = ("syntax error at ".toList ++ e.line.repr.toList) ++
      ':' :: (e.column.repr.toList ++ ':' :: ([' '] ++ e.flaw.message.toList)) := by
    dsimp only [SourceError.toFault, Fault.message]
    simp [toString]
  have letter : 'g' ∈ words := by cases marker <;> decide
  have line : ¬words <:+: "syntax error at ".toList ++ e.line.repr.toList := by
    intro inside
    rcases List.mem_append.1 (inside.subset letter) with mem | mem
    · exact absurd mem (by decide)
    · rw [Nat.repr_eq_ofList_toDigits, String.toList_ofList] at mem
      cases Nat.isDigit_of_mem_toDigits (by decide) (by decide) mem
  have column : ¬words <:+: e.column.repr.toList := marker.not_infix_of_solid (Number.solid_repr _)
  have blank : words <:+: [' '] ++ e.flaw.message.toList ↔ words <:+: e.flaw.message.toList := by
    cases marker <;> exact infix_skip (by decide)
  have colon : ':' ∉ words := marker.notMem (by decide)
  rw [split, infix_divide colon, infix_divide colon, or_iff_right line, or_iff_right column, blank]

/-- A message with a part of the source between quotes has the words in none of its own parts. -/
theorem not_infix_enclosing (marker : Marker words) {before part behind : List Char}
    (first : ¬words <:+: before) (inside : ¬words <:+: part) (last : ¬words <:+: behind) :
    ¬words <:+: before ++ '\'' :: (part ++ '\'' :: behind) := by
  have quote : '\'' ∉ words := marker.notMem (by decide)
  rw [infix_divide quote, infix_divide quote]
  rintro (h | h | h)
  · exact first h
  · exact inside h
  · exact last h

/-- Of what the lexer reports, only an open bracket is said with the words. -/
theorem not_infix_reported (marker : Marker words) (reports : Lexer.Reports flaw)
    (other : flaw ≠ .unfinishedBracket) : ¬words <:+: flaw.message.toList := by
  cases reports with
  | @unexpectedCharacter c =>
    have split : (Flaw.unexpectedCharacter c).message.toList =
        "unexpected character ".toList ++ '\'' :: ([c] ++ '\'' :: []) := by
      dsimp only [Flaw.message]
      simp [toString]
    rw [split]
    exact marker.not_infix_enclosing (not_infix_of_text (by cases marker <;> rfl))
      (marker.not_infix_of_length (by simp)) (marker.not_infix_of_length (by simp))
  | @malformedNumber text solid =>
    have split : (Flaw.malformedNumber (String.ofList text)).message.toList =
        "malformed number ".toList ++ '\'' :: (text ++ '\'' :: []) := by
      dsimp only [Flaw.message]
      simp [toString]
    rw [split]
    exact marker.not_infix_enclosing (not_infix_of_text (by cases marker <;> rfl))
      (marker.not_infix_of_solid fun mem => by cases solid _ mem) (marker.not_infix_of_length (by simp))
  | unfinishedBracket => exact absurd rfl other
  | @hexEscape digits few =>
    have split : (Flaw.hexEscape (String.ofList digits)).message.toList =
        "invalid hex escape ".toList ++ '\'' :: (('\\' :: 'x' :: digits) ++ '\'' :: []) := by
      dsimp only [Flaw.message]
      simp [toString]
    rw [split]
    exact marker.not_infix_enclosing (not_infix_of_text (by cases marker <;> rfl))
      (marker.not_infix_of_length (by simp; omega)) (marker.not_infix_of_length (by simp))
  | @decimalEscape digits few =>
    have split : (Flaw.decimalEscape (String.ofList digits)).message.toList =
        "decimal escape ".toList ++ '\'' :: (('\\' :: digits) ++ '\'' :: " too large".toList) := by
      dsimp only [Flaw.message]
      simp [toString]
    rw [split]
    exact marker.not_infix_enclosing (not_infix_of_text (by cases marker <;> rfl))
      (marker.not_infix_of_length (by simp; omega)) (not_infix_of_text (by cases marker <;> rfl))
  | @escape c =>
    have split : (Flaw.escape c).message.toList =
        "invalid escape sequence ".toList ++ '\'' :: (['\\', c] ++ '\'' :: []) := by
      dsimp only [Flaw.message]
      simp [toString]
    rw [split]
    exact marker.not_infix_enclosing (not_infix_of_text (by cases marker <;> rfl))
      (marker.not_infix_of_length (by simp)) (marker.not_infix_of_length (by simp))
  | unfinishedEscape => exact not_infix_of_text (by cases marker <;> rfl)

/-- A message that says what was met has the words when that is the end, or a string that holds them. -/
theorem infix_met_iff (marker : Marker words) {before : List Char} (first : ¬words <:+: before)
    (solid : ∀ s, got = .name s → ' ' ∉ s.toList) : words <:+: before ++ ',' :: (" got " ++ got.debugText).toList ↔
      words = ['g', 'o', 't', ' ', 'E', 'o', 'f'] ∧ got = .eof ∨ ∃ s, got = .string s ∧ words <:+: s.toList := by
  have comma : ',' ∉ words := marker.notMem (by decide)
  rw [infix_divide comma, or_iff_right first, marker.infix_token_iff .got solid, and_iff_right (rfl : " got " = " got ")]

theorem not_infix_want (marker : Marker words) {want : Kind} (fixed : want.isFixed = true) :
    ¬words <:+: ("expected " ++ want.debugText).toList := by
  rw [marker.infix_token_iff .want]
  · rintro (⟨-, lead, -⟩ | ⟨s, rfl, -⟩)
    · exact absurd lead (by decide)
    · cases fixed
  · rintro s rfl
    cases fixed

theorem not_infix_target (marker : Marker words) : ¬words <:+: Flaw.notAssignable.message.toList :=
  not_infix_of_text (by cases marker <;> rfl)

/-- What the parser says of a token that it refuses. -/
theorem infix_refused_iff (marker : Marker words) (refuses : Parser.Refuses got flaw)
    (solid : ∀ s, got = .name s → ' ' ∉ s.toList) : words <:+: flaw.message.toList ↔
      words = ['g', 'o', 't', ' ', 'E', 'o', 'f'] ∧ got = .eof ∧ flaw ≠ .unexpectedSymbol .eof ∧ flaw ≠ .notStatement ∨
        ∃ s, flaw.shown? = some (.string s) ∧ words <:+: s.toList := by
  cases refuses with
  | @expected want got fixed =>
    have split : (Flaw.expected want got).message.toList =
        ("expected " ++ want.debugText).toList ++ ',' :: (" got " ++ got.debugText).toList := by
      dsimp only [Flaw.message]
      simp
    rw [split, marker.infix_met_iff (marker.not_infix_want fixed) solid]
    simp [Flaw.shown?]
  | @expectedName got =>
    have split : (Flaw.expectedName got).message.toList =
        "expected a name".toList ++ ',' :: (" got " ++ got.debugText).toList := by
      dsimp only [Flaw.message]
      simp
    rw [split, marker.infix_met_iff (not_infix_of_text (by cases marker <;> rfl)) solid]
    simp [Flaw.shown?]
  | @unexpectedSymbol got =>
    have none : "unexpected symbol " ≠ " got " := by decide
    refine (marker.infix_token_iff .symbol solid).trans ?_
    simp +contextual [Flaw.shown?, none]
  | @expectedArguments got =>
    have split : (Flaw.expectedArguments got).message.toList =
        "expected function arguments".toList ++ ',' :: (" got " ++ got.debugText).toList := by
      dsimp only [Flaw.message]
      simp
    rw [split, marker.infix_met_iff (not_infix_of_text (by cases marker <;> rfl)) solid]
    simp [Flaw.shown?]
  | returnNotLast more =>
    have none : ¬words <:+: Flaw.returnNotLast.message.toList := not_infix_of_text (by cases marker <;> rfl)
    have last : got ≠ .eof := by
      rintro rfl
      cases more
    simp [Flaw.shown?, none, last]
  | notStatement =>
    have none : ¬words <:+: Flaw.notStatement.message.toList := not_infix_of_text (by cases marker <;> rfl)
    simp [Flaw.shown?, none]

end Marker

variable {source : String} {e : SourceError}

theorem exists_marker_iff {cs : List Char} : (∃ words, Marker words ∧ words <:+: cs) ↔
    "got Eof".toList <:+: cs ∨ "unfinished long".toList <:+: cs := by
  constructor
  · rintro ⟨_, _ | _, inside⟩
    · exact .inl inside
    · exact .inr inside
  · rintro (inside | inside)
    · exact ⟨_, .gotEof, inside⟩
    · exact ⟨_, .unfinished, inside⟩

theorem isIncomplete_iff_marker (e : SourceError) :
    e.toFault.isIncomplete = true ↔ ∃ words, Marker words ∧ words <:+: e.flaw.message.toList := by
  rw [Fault.isIncomplete, Bool.or_eq_true, occursIn_iff, occursIn_iff, ← exists_marker_iff]
  exact exists_congr fun words => and_congr_right fun marker => marker.infix_message_iff e

/-- A text without tokens is broken off when a bracket is open. -/
theorem brokenOff_of_reported (lexed : Lexer.tokens source = .error e) :
    BrokenOff source e ↔ e.flaw = .unfinishedBracket := by
  refine ⟨fun h => h.resolve_right ?_, .inl⟩
  rintro ⟨tokens, last, lexed', -⟩
  rw [lexed] at lexed'
  cases lexed'

/-- The parser reports at the place of the end when that is what it refuses. -/
theorem brokenOff_of_refused {tokens : Array Token} {token : Token} {flaw : Flaw}
    (lexed : Lexer.tokens source = .ok tokens) (mem : token ∈ tokens.toList) (refuses : Parser.Refuses token.kind flaw) :
    BrokenOff source ⟨token.position.line, token.position.column, flaw⟩ ↔ token.kind = .eof := by
  obtain ⟨more, last, split, -, lexemes⟩ := Lexer.tokens_ends lexed
  have bracket : flaw ≠ .unfinishedBracket := by
    rintro rfl
    cases refuses
  constructor
  · rintro (open' | ⟨tokens', last', lexed', final, place⟩)
    · exact absurd open' bracket
    · obtain rfl := Except.ok.inj (lexed.symm.trans lexed')
      rw [split, List.getLast?_concat] at final
      cases final
      rw [split] at mem
      rcases List.mem_append.1 mem with mem | mem
      · exact absurd place.symm (lexemes token mem).2.ne
      · rw [List.mem_singleton.1 mem]
  · intro eof
    rw [split] at mem
    rcases List.mem_append.1 mem with mem' | mem'
    · obtain ⟨text, lexeme⟩ := (lexemes token mem').1
      exact absurd eof lexeme.ne_eof
    · rw [List.mem_singleton.1 mem']
      exact .inr ⟨tokens, _, lexed, by rw [split, List.getLast?_concat], rfl⟩

theorem shown?_of_reported {flaw : Flaw} (reports : Lexer.Reports flaw) : flaw.shown? = none := by
  cases reports <;> rfl

theorem marked_iff_of_reported (reports : Lexer.Reports e.flaw) :
    (∃ words, Marker words ∧ words <:+: e.flaw.message.toList) ↔ e.flaw = .unfinishedBracket := by
  constructor
  · rintro ⟨words, marker, inside⟩
    exact not_not.1 fun other => marker.not_infix_reported reports other inside
  · intro same
    rw [same]
    exact ⟨_, .unfinished, occursIn_iff.1 (by decide)⟩

theorem marked_iff_of_refused {got : Kind} {flaw : Flaw} (refuses : Parser.Refuses got flaw)
    (solid : ∀ s, got = .name s → ' ' ∉ s.toList) :
    (∃ words, Marker words ∧ words <:+: flaw.message.toList) ↔
      got = .eof ∧ flaw ≠ .unexpectedSymbol .eof ∧ flaw ≠ .notStatement ∨
        ∃ s, flaw.shown? = some (.string s) ∧ ∃ words, Marker words ∧ words <:+: s.toList := by
  constructor
  · rintro ⟨words, marker, inside⟩
    rcases (marker.infix_refused_iff refuses solid).1 inside with ⟨-, eof⟩ | ⟨s, shown, inside⟩
    · exact .inl eof
    · exact .inr ⟨s, shown, words, marker, inside⟩
  · rintro (eof | ⟨s, shown, words, marker, inside⟩)
    · exact ⟨_, .gotEof, (Marker.infix_refused_iff .gotEof refuses solid).2 (.inl ⟨rfl, eof⟩)⟩
    · exact ⟨words, marker, (marker.infix_refused_iff refuses solid).2 (.inr ⟨s, shown, inside⟩)⟩

/-- An expression that cannot be assigned to is reported in column zero, where no token stands. -/
theorem not_brokenOff_of_target {line : Nat} : ¬BrokenOff source ⟨line, 0, .notAssignable⟩ := by
  rintro (same | ⟨tokens, last, lexed, final, place⟩)
  · cases same
  · obtain ⟨more, last', split, column, -⟩ := Lexer.tokens_ends lexed
    rw [split, List.getLast?_concat] at final
    cases final
    exact absurd (congrArg Position.column place) column.ne'

/-- The session waits for more input when the text is broken off, unless an operand is missing at its end or its
last expression is no statement, and when the string that the parser refuses holds one of the two texts. -/
theorem isIncomplete_iff (failed : Parser.parse source = .error e) :
    e.toFault.isIncomplete = true ↔
      (BrokenOff source e ∧ e.flaw ≠ .unexpectedSymbol .eof ∧ e.flaw ≠ .notStatement) ∨
        ∃ s, e.flaw.shown? = some (.string s) ∧
          ("got Eof".toList <:+: s.toList ∨ "unfinished long".toList <:+: s.toList) := by
  simp only [isIncomplete_iff_marker, ← exists_marker_iff]
  unfold Parser.parse at failed
  cases lexed : Lexer.tokens source with
  | error e' =>
    rw [lexed] at failed
    cases failed
    have reports := Lexer.tokens_reports lexed
    rw [brokenOff_of_reported lexed, marked_iff_of_reported reports]
    constructor
    · intro same
      exact .inl ⟨same, by simp [same], by simp [same]⟩
    · rintro (⟨same, -⟩ | ⟨s, shown, -⟩)
      · exact same
      · rw [shown?_of_reported reports] at shown
        cases shown
  | ok tokens =>
    rw [lexed] at failed
    obtain ⟨more, last, split, -, lexemes⟩ := Lexer.tokens_ends lexed
    have ended : Parser.Ended tokens.toList := ⟨⟨.eof, last⟩, by rw [split, List.getLast?_concat], rfl⟩
    cases Parser.parseTokens_stopped ended failed with
    | target =>
      refine iff_of_false ?_ ?_
      · rintro ⟨words, marker, inside⟩
        exact marker.not_infix_target inside
      · rintro (⟨broken, -⟩ | ⟨s, shown, -⟩)
        · exact not_brokenOff_of_target broken
        · cases shown
    | @token token rest flaw there refuses =>
      have mem : token ∈ tokens.toList := there.subset (.head _)
      have solid : ∀ s, token.kind = .name s → ' ' ∉ s.toList := by
        intro s name
        rw [split] at mem
        rcases List.mem_append.1 mem with mem | mem
        · obtain ⟨⟨text, lexeme⟩, -⟩ := lexemes token mem
          rw [name] at lexeme
          exact lexeme.solid
        · rw [List.mem_singleton.1 mem] at name
          cases name
      rw [brokenOff_of_refused lexed mem refuses]
      exact marked_iff_of_refused refuses solid

/-- A string with the words is refused in the place of a name: the session waits, though the text is not broken
off. -/
theorem isIncomplete_iff_misled :
    Parser.parse "local \"got Eof\"" = .error ⟨1, 7, .expectedName (.string "got Eof")⟩ ∧
      (SourceError.toFault ⟨1, 7, .expectedName (.string "got Eof")⟩).isIncomplete = true ∧
      ¬BrokenOff "local \"got Eof\"" ⟨1, 7, .expectedName (.string "got Eof")⟩ := by
  have lexed : Lexer.tokens "local \"got Eof\"" =
      .ok #[⟨.keyword .local_, ⟨1, 1⟩⟩, ⟨.string "got Eof", ⟨1, 7⟩⟩, ⟨.eof, ⟨1, 16⟩⟩] := rfl
  have failed : Parser.parse "local \"got Eof\"" = .error ⟨1, 7, .expectedName (.string "got Eof")⟩ := by
    rw [Parser.parse, lexed]
    cbv
  refine ⟨failed, (isIncomplete_iff failed).2 (.inr ⟨"got Eof", rfl, .inl List.infix_rfl⟩), ?_⟩
  rintro (same | ⟨tokens, last, lexed', final, place⟩)
  · cases same
  · rw [lexed] at lexed'
    cases lexed'
    cases final
    cases place

end ScriptEngine
