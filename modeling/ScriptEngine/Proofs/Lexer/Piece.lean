import ScriptEngine.Proofs.Lexer.Scan

/-!
# The piece that starts at a character

What `piece` finds is the spelling of a token or part of what may stand between tokens (`piece_sound`), and
a spelling that a blank or the end of the text follows is found whole (`piece_of_lexeme`).
-/

namespace ScriptEngine

namespace Keyword

theorem text_of_ofText? {s : String} {k : Keyword} (found : ofText? s = some k) : k.text = s := by
  unfold ofText? at found
  split at found <;> cases found <;> rfl

theorem ofText?_text (k : Keyword) : ofText? k.text = some k := by
  cases k <;> rfl

/-- A keyword looks like a name. -/
theorem parts (k : Keyword) : (∀ d ∈ k.text.toList, Lexer.isNamePart d = true) ∧
    ∀ d ∈ k.text.toList.head?, Lexer.isNameStart d = true := by
  obtain ⟨cs, spelled, parts, start⟩ : ∃ cs, k.text = String.ofList cs ∧ cs.all Lexer.isNamePart = true ∧
      cs.head?.all Lexer.isNameStart = true := by
    cases k <;> exact ⟨_, rfl, rfl, rfl⟩
  rw [spelled, String.toList_ofList]
  exact ⟨List.all_eq_true.1 parts, fun d head => by simpa [Option.mem_def.1 head] using start⟩

end Keyword

namespace Lexer

variable {c quote : Char} {cs text body rest gap more : List Char} {kind : Kind} {p : Piece} {level : Nat}

/-- What a piece of the given kind may be; without a kind it goes before what stands between tokens. -/
def Fits (text rest : List Char) : Option Kind → Prop
  | some kind => Lexeme kind text
  | none => ∀ gap more, rest = gap ++ more → Filler gap more → Filler (text ++ gap) more

/-- `p` is a piece at the start of `cs`. -/
def Piece.Starts (p : Piece) (cs : List Char) : Prop :=
  ∃ text rest, cs = text ++ rest ∧ text.length = p.tail + 1 ∧ Fits text rest p.kind

/-! ## What is found is a piece -/

theorem isNamePart_of_start (start : isNameStart c = true) : isNamePart c = true := by
  simp only [isNameStart, isNamePart, Char.isAlphanum, Bool.or_eq_true] at start ⊢
  exact start.imp_left .inl

theorem word_starts (start : isNameStart c = true) : (word (c :: cs)).Starts (c :: cs) := by
  have first := List.takeWhile_cons_of_pos (l := cs) (isNamePart_of_start start)
  refine ⟨(c :: cs).takeWhile isNamePart, (c :: cs).dropWhile isNamePart,
    List.takeWhile_append_dropWhile.symm, ?_, ?_⟩
  · rw [word, first]
    rfl
  · show Lexeme _ _
    cases known : Keyword.ofText? (String.ofList ((c :: cs).takeWhile isNamePart)) with
    | some k =>
      have text := congrArg String.toList (Keyword.text_of_ofText? known)
      rw [String.toList_ofList] at text
      exact text ▸ .keyword k
    | none =>
      have free (k : Keyword) : k.text ≠ String.ofList ((c :: cs).takeWhile isNamePart) := by
        intro same
        rw [← same, Keyword.ofText?_text] at known
        cases known
      rw [first] at free ⊢
      exact .name start (fun _ mem => List.mem_takeWhile_imp mem) free

theorem numberPiece_ok {value : Option Float} (found : numberPiece text value = .ok p) :
    ∃ n, value = some n ∧ p = ⟨some (.number n), text.length - 1⟩ := by
  unfold numberPiece at found
  split at found
  · cases found
    exact ⟨_, rfl, rfl⟩
  · cases found

theorem DecimalNumeral.ne_nil {whole fraction exponent : List Char}
    (numeral : DecimalNumeral text whole fraction exponent) : text ≠ [] := by
  rintro rfl
  rcases numeral.some' with some' | ⟨d, ds, rfl⟩
  · exact some' (List.append_eq_nil_iff.1 numeral.parts.symm).1
  · have parts := numeral.parts
    simp at parts

theorem decimalNumber_starts (starts : startsNumber c cs = true) (found : decimalNumber (c :: cs) = .ok p) :
    p.Starts (c :: cs) := by
  obtain ⟨numeral, rest, whole, fraction, exponent, split, length, form⟩ := numeralLength_sound starts
  have here : (c :: cs).take (numeralLength (c :: cs)) = numeral := by rw [← length, split, List.take_left]
  rw [decimalNumber, here] at found
  obtain ⟨n, value, rfl⟩ := numberPiece_ok found
  refine ⟨numeral, rest, split, ?_, .decimal form value⟩
  have := List.length_pos_of_ne_nil form.ne_nil
  show numeral.length = numeral.length - 1 + 1
  omega

theorem number_starts (starts : startsNumber c cs = true) (found : number (c :: cs) = .ok p) :
    p.Starts (c :: cs) := by
  unfold number at found
  split at found
  · rename_i x rest same
    obtain ⟨rfl, rfl⟩ := List.cons.inj same
    dsimp only at found
    split at found
    · rename_i mark
      obtain ⟨n, value, rfl⟩ := numberPiece_ok found
      obtain ⟨natural, value', rfl⟩ := Option.map_eq_some_iff.1 value
      have some' : rest.takeWhile isHexDigit ≠ [] := by simpa using mark.2
      refine ⟨'0' :: x :: rest.takeWhile isHexDigit, rest.dropWhile isHexDigit, ?_, rfl,
        .hexadecimal mark.1 some' (fun _ mem => List.mem_takeWhile_imp mem) value'⟩
      rw [List.cons_append, List.cons_append, List.takeWhile_append_dropWhile]
    · exact decimalNumber_starts starts found
  · exact decimalNumber_starts starts found

theorem longBracket_ok {offset tail : Nat} (found : longBracket level offset cs = .ok (body, tail)) :
    ∃ rest, cs = body ++ (closing level ++ rest) ∧ Closed level body ∧ tail = offset + body.length + level + 2 := by
  unfold longBracket at found
  split at found
  · rename_i text inside
    cases found
    obtain ⟨body, rest, rfl, rfl, closed⟩ := before?_eq_some inside
    exact ⟨rest, rfl, closed, rfl⟩
  · cases found

theorem opening_of_openLevel? (found : openLevel? cs = some level) :
    '[' :: cs = opening level ++ cs.drop (level + 1) := by
  obtain ⟨rest, same⟩ := openLevel?_iff.1 found
  obtain rfl : cs = List.replicate level '=' ++ ['['] ++ rest := (List.tail_eq_of_cons_eq same).symm
  rw [List.drop_left' (by simp), same]

theorem quotedString_starts (quote' : quote = '"' ∨ quote = '\'') (found : quotedString quote cs = .ok p) :
    p.Starts (quote :: cs) := by
  unfold quotedString at found
  split at found
  · cases found
  · rename_i body inside
    obtain ⟨body, rest, rfl, rfl, quotable⟩ := quotedBody?_eq_some inside
    split at found
    · rename_i s value
      cases found
      exact ⟨quote :: (body ++ [quote]), rest, by simp, by simp, .quoted quote' quotable value⟩
    · cases found

theorem symbolPiece_starts (found : symbolPiece c cs = .ok p) : p.Starts (c :: cs) := by
  unfold symbolPiece at found
  split at found
  · rename_i s tail here
    cases found
    unfold symbol? at here
    split at here <;> cases here <;> exact ⟨_, _, rfl, rfl, .symbol _⟩
  · cases found

/-- A comment that runs to the end of its line. -/
theorem line_fits (short : ∀ level, ¬opening level <+: cs) :
    Piece.Starts ⟨none, 1 + (cs.takeWhile (· != '\n')).length⟩ ('-' :: '-' :: cs) := by
  refine ⟨'-' :: '-' :: cs.takeWhile (· != '\n'), cs.dropWhile (· != '\n'), ?_, ?_, fun gap more split filler => ?_⟩
  · rw [List.cons_append, List.cons_append, List.takeWhile_append_dropWhile]
  · rw [List.length_cons, List.length_cons, Nat.add_comm 1]
  · refine .line ⟨fun newline => ?_, fun level opens => ?_⟩ (fun c mem => ?_) filler
    · simpa using List.mem_takeWhile_imp newline
    · exact short level (opens.trans (List.takeWhile_prefix _))
    · have stop := List.head?_dropWhile_not (· != '\n') cs
      rw [← split] at mem
      rw [show _ = some c from mem] at stop
      simpa using stop

theorem comment_starts (found : comment cs = .ok p) : p.Starts ('-' :: '-' :: cs) := by
  unfold comment at found
  dsimp only at found
  split at found
  · rename_i rest
    split at found
    · rename_i level opens
      have split := opening_of_openLevel? opens
      cases closes : longBracket level (level + 3) (rest.drop (level + 1)) with
      | error e =>
        rw [closes] at found
        cases found
      | ok inside =>
        rw [closes] at found
        cases found
        obtain ⟨behind, after, closed, length⟩ := longBracket_ok closes
        refine ⟨'-' :: '-' :: (opening level ++ (inside.1 ++ closing level)), behind, ?_, ?_,
          fun gap more _ filler => ?_⟩
        · rw [split, after]
          simp
        · rw [length]
          simp [opening, closing]
          omega
        · have := Filler.long closed filler
          simpa using this
    · rename_i none
      cases found
      exact line_fits fun level opens => by simp [openLevel?_iff.2 opens] at none
  · rename_i other
    cases found
    exact line_fits fun level opens => other _ opens.choose_spec.symm

theorem piece_sound (found : piece c cs = .ok p) : p.Starts (c :: cs) := by
  unfold piece at found
  split at found
  · rename_i space
    cases found
    exact ⟨[c], cs, rfl, rfl, fun gap more _ => .blank space⟩
  · split at found
    · exact number_starts ‹_› found
    · split at found
      · cases found
        exact word_starts ‹_›
      · split at found
        · exact quotedString_starts ‹_› found
        · split at found
          · exact comment_starts found
          · split at found
            · rename_i level opens
              have split := opening_of_openLevel? opens
              cases closes : longBracket level (level + 1) (cs.drop (level + 1)) with
              | error e =>
                rw [closes] at found
                cases found
              | ok inside =>
                rw [closes] at found
                cases found
                obtain ⟨behind, after, closed, length⟩ := longBracket_ok closes
                refine ⟨opening level ++ (inside.1 ++ closing level), behind, ?_, ?_, .long closed⟩
                · rw [split, after]
                  simp
                · rw [length]
                  simp [opening, closing]
                  omega
            · exact symbolPiece_starts found
          · exact symbolPiece_starts found

/-! ## A piece that is there is found -/

theorem Lexeme.ne_nil (lexeme : Lexeme kind text) : text ≠ [] := by
  cases lexeme with
  | symbol s => cases s <;> decide
  | keyword k => cases k <;> decide
  | decimal numeral _ => exact numeral.ne_nil
  | long => simp [opening]
  | _ => exact List.cons_ne_nil _ _

theorem openLevel?_of_opening (level : Nat) (cs : List Char) :
    openLevel? (List.replicate level '=' ++ ['['] ++ cs) = some level ∧
      (List.replicate level '=' ++ ['['] ++ cs).drop (level + 1) = cs :=
  ⟨openLevel?_iff.2 ⟨cs, rfl⟩, List.drop_left' (by simp)⟩

theorem longBracket_of_closed (closed : Closed level body) (offset : Nat) (rest : List Char) :
    longBracket level offset (body ++ (closing level ++ rest)) = .ok (body, offset + body.length + level + 2) := by
  rw [longBracket, before?_of_closed closed]
  rfl

theorem piece_of_space (space : isSpace c = true) : piece c cs = .ok ⟨none, 0⟩ := by
  unfold piece
  rw [if_pos space]

theorem piece_of_number (starts : startsNumber c cs = true) : piece c cs = number (c :: cs) := by
  unfold piece
  rw [if_neg, if_pos starts]
  intro space
  rcases isSpace_iff.1 space with rfl | rfl | rfl | rfl <;> simp [startsNumber] at starts

/-- No name starts with a digit. -/
theorem isDigit_of_start (start : isNameStart c = true) : c.isDigit = false := by
  rcases Bool.or_eq_true_iff.1 start with letter | underscore
  · refine Bool.eq_false_iff.2 fun digit => ?_
    have small : c.val ≤ '9'.val := of_decide_eq_true (Bool.and_eq_true_iff.1 digit).2
    rcases Bool.or_eq_true_iff.1 letter with upper | lower
    · have large : 'A'.val ≤ c.val := (of_decide_eq_true upper).1
      exact absurd (UInt32.le_trans large small) (by decide)
    · have large : 'a'.val ≤ c.val := of_decide_eq_true (Bool.and_eq_true_iff.1 lower).1
      exact absurd (UInt32.le_trans large small) (by decide)
  · rw [beq_iff_eq.1 underscore]
    rfl

theorem piece_of_word (start : isNameStart c = true) : piece c cs = .ok (word (c :: cs)) := by
  unfold piece
  rw [if_neg, if_neg, if_pos start]
  · intro starts
    rw [startsNumber, isDigit_of_start start, Bool.false_or, Bool.and_eq_true, beq_iff_eq] at starts
    obtain ⟨rfl, -⟩ := starts
    cases start
  · intro space
    rcases isSpace_iff.1 space with rfl | rfl | rfl | rfl <;> cases start

theorem piece_of_quote (quote' : quote = '"' ∨ quote = '\'') : piece quote cs = quotedString quote cs := by
  rcases quote' with rfl | rfl <;> rfl

theorem piece_of_symbol (s : Symbol) (split : c :: text = s.text.toList) (apart : Apart rest) :
    piece c (text ++ rest) = .ok ⟨some (.symbol s), text.length⟩ := by
  -- only what starts a longer symbol depends on what follows
  cases s <;> cases split <;>
    first | rfl | (rcases apart.cases with rfl | ⟨more, rfl | rfl | rfl | rfl⟩ <;> rfl)

theorem word_of_parts (parts : ∀ d ∈ c :: text, isNamePart d = true) (apart : Apart rest) :
    word (c :: (text ++ rest)) =
      ⟨some (((Keyword.ofText? (String.ofList (c :: text))).map Kind.keyword).getD (.name (String.ofList (c :: text)))),
        text.length⟩ := by
  have whole := apart.stops (p := isNamePart) (fun d space => by
    rcases isSpace_iff.1 space with rfl | rfl | rfl | rfl <;> rfl) parts
  rw [word, ← List.cons_append, whole]
  cases Keyword.ofText? (String.ofList (c :: text)) <;> rfl

/-- A numeral has no letter but that of its exponent. -/
theorem DecimalNumeral.ne_hex {whole fraction exponent : List Char}
    (form : DecimalNumeral text whole fraction exponent) (mem : c ∈ text) : c ≠ 'x' ∧ c ≠ 'X' := by
  obtain ⟨rfl, digits, point, -, power⟩ := form
  have digit {d : Char} (isDigit : d.isDigit = true) : d ≠ 'x' ∧ d ≠ 'X' := by
    constructor <;> rintro rfl <;> cases isDigit
  rw [List.mem_append, List.mem_append] at mem
  rcases mem with mem | mem | mem
  · exact digit (digits c mem)
  · rcases point with rfl | ⟨ds, rfl, digits⟩
    · cases mem
    · rcases List.mem_cons.1 mem with rfl | mem
      · decide
      · exact digit (digits c mem)
  · rcases power with rfl | ⟨e, sign, ds, rfl, mark, form, -, digits⟩
    · cases mem
    · rcases List.mem_cons.1 mem with rfl | mem
      · rcases mark with rfl | rfl <;> decide
      · rcases List.mem_append.1 mem with mem | mem
        · rcases form with rfl | rfl | rfl
          · cases mem
          · cases List.mem_singleton.1 mem
            decide
          · cases List.mem_singleton.1 mem
            decide
        · exact digit (digits c mem)

theorem number_of_numeral {whole fraction exponent : List Char} {n : Float}
    (form : DecimalNumeral text whole fraction exponent) (value : Number.decimal? text = some n) (apart : Apart rest) :
    number (text ++ rest) = .ok ⟨some (.number n), text.length - 1⟩ := by
  have decimal : decimalNumber (text ++ rest) = .ok ⟨some (.number n), text.length - 1⟩ := by
    rw [decimalNumber, numeralLength_of_numeral form apart, List.take_left, value]
    rfl
  unfold number
  split
  · rename_i x more split
    dsimp only
    rw [if_neg, decimal]
    rintro ⟨mark, -⟩
    -- the second character is one of the numeral or a blank
    have second : x ∈ text ∨ isSpace x = true := by
      rcases text with - | ⟨a, - | ⟨b, text⟩⟩
      · exact absurd rfl (Lexeme.decimal form value).ne_nil
      · cases split
        exact .inr (apart x rfl)
      · cases split
        exact .inl (.tail _ (.head _))
    rcases second with mem | space
    · exact mark.elim (form.ne_hex mem).1 (form.ne_hex mem).2
    · rcases mark with rfl | rfl <;> cases space
  · exact decimal

theorem DecimalNumeral.starts {whole fraction exponent : List Char}
    (form : DecimalNumeral (c :: text) whole fraction exponent) (rest : List Char) :
    startsNumber c (text ++ rest) = true := by
  obtain ⟨parts, digits, point, some', -⟩ := form
  rw [startsNumber, Bool.or_eq_true]
  cases whole with
  | cons d ds =>
    cases parts
    exact .inl (digits c (.head _))
  | nil =>
    right
    obtain ⟨d, ds, rfl⟩ := some'.resolve_left (absurd rfl)
    obtain ⟨ds', same, digits⟩ := point.resolve_left (List.cons_ne_nil _ _)
    cases same
    cases parts
    exact digits d (.head _)

theorem piece_of_lexeme (lexeme : Lexeme kind (c :: text)) (apart : Apart rest) :
    piece c (text ++ rest) = .ok ⟨some kind, text.length⟩ := by
  generalize split : c :: text = whole at lexeme
  cases lexeme with
  | symbol s => exact piece_of_symbol s split apart
  | keyword k =>
    obtain ⟨parts, start⟩ := k.parts
    rw [← split] at parts start
    rw [piece_of_word (start c rfl), word_of_parts parts apart, split, String.ofList_toList, Keyword.ofText?_text]
    rfl
  | name start parts free =>
    cases split
    have parts' : ∀ d ∈ c :: text, isNamePart d = true := by
      intro d mem
      rcases List.mem_cons.1 mem with rfl | mem
      · exact isNamePart_of_start start
      · exact parts d mem
    have unknown : Keyword.ofText? (String.ofList (c :: text)) = none := by
      cases known : Keyword.ofText? (String.ofList (c :: text)) with
      | none => rfl
      | some k => exact absurd (Keyword.text_of_ofText? known) (free k)
    rw [piece_of_word start, word_of_parts parts' apart, unknown]
    rfl
  | decimal numeral value =>
    subst split
    rw [piece_of_number (numeral.starts rest), ← List.cons_append, number_of_numeral numeral value apart]
    rfl
  | hexadecimal mark some' digits value =>
    cases split
    have whole := apart.stops (p := isHexDigit) (fun d space => by
      rcases isSpace_iff.1 space with rfl | rfl | rfl | rfl <;> rfl) digits
    rw [piece_of_number rfl, List.cons_append]
    show (if _ then _ else _) = _
    rw [whole, if_pos ⟨mark, by simpa using some'⟩, hexNumber, value]
    rfl
  | quoted quote' quotable value =>
    cases split
    have backslash : c ≠ '\\' := by rcases quote' with rfl | rfl <;> decide
    rw [piece_of_quote quote', quotedString, List.append_assoc, List.singleton_append,
      quotedBody?_of_quotable backslash quotable, List.reverse_nil, List.nil_append]
    dsimp only
    rw [value, List.length_append]
    rfl
  | @long level body closed =>
    cases split
    obtain ⟨opens, behind⟩ := openLevel?_of_opening level (body ++ (closing level ++ rest))
    have found := longBracket_of_closed closed (level + 1) rest
    have whole : (List.replicate level '=' ++ ['[']).append (body ++ closing level) ++ rest =
        List.replicate level '=' ++ ['['] ++ (body ++ (closing level ++ rest)) := by
      simp [List.append_assoc]
    rw [whole]
    unfold piece
    rw [if_neg (by decide), if_neg (by simp [startsNumber]), if_neg (by decide), if_neg (by decide)]
    dsimp only
    rw [opens]
    dsimp only
    rw [behind, found]
    simp [closing, Bind.bind, Except.bind, Pure.pure, Except.pure]
    omega

theorem piece_of_line (comment' : LineComment body) (ends : ∀ d ∈ rest.head?, d = '\n') :
    piece '-' ('-' :: (body ++ rest)) = .ok ⟨none, 1 + body.length⟩ := by
  have whole : (body ++ rest).takeWhile (· != '\n') = body := by
    rw [List.takeWhile_append_of_pos fun d mem => bne_iff_ne.2 (ne_of_mem_of_not_mem mem comment'.line)]
    cases rest with
    | nil => exact List.append_nil body
    | cons d rest => rw [List.takeWhile_cons_of_neg (by simp [ends d rfl]), List.append_nil]
  have short (more : List Char) (same : '[' :: more = body ++ rest) : openLevel? more = none := by
    cases opens : openLevel? more with
    | none => rfl
    | some level =>
      obtain ⟨behind, opens⟩ := openLevel?_iff.1 opens
      rw [same, List.append_eq_append_iff] at opens
      rcases opens with ⟨more, split, -⟩ | ⟨more, split, split'⟩
      · exact absurd ⟨more, split.symm⟩ (comment'.short level)
      · cases more with
        | nil => exact absurd ⟨[], by rw [split, List.append_nil, List.append_nil]⟩ (comment'.short level)
        | cons d more =>
          -- the opening would go on behind the line break
          have inside : d ∈ opening level := by simp [split]
          rw [ends d (by rw [split']; rfl)] at inside
          simp [opening] at inside
  show comment (body ++ rest) = _
  unfold comment
  dsimp only
  rw [whole]
  split
  · rename_i more same
    rw [short more same.symm]
  · rfl

theorem piece_of_long (closed : Closed level body) (rest : List Char) :
    piece '-' ('-' :: (opening level ++ (body ++ (closing level ++ rest)))) =
      .ok ⟨none, level + 3 + body.length + level + 2⟩ := by
  obtain ⟨opens, behind⟩ := openLevel?_of_opening level (body ++ (closing level ++ rest))
  have found := longBracket_of_closed closed (level + 3) rest
  show comment ('[' :: (List.replicate level '=' ++ ['['] ++ (body ++ (closing level ++ rest)))) = _
  simp only [comment, opens, behind, found]
  rfl

end Lexer

end ScriptEngine
