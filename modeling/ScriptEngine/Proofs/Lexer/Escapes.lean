import ScriptEngine.Proofs.Lexer.Rendering

/-!
# Which bodies a quoted string may have

The body of a quoted string is cut into parts, each of which stands for at most one character (`Stands`): a
character for itself, or an escape. Resolving the escapes succeeds on exactly the bodies that can be cut so,
and puts together what their parts stand for (`unescape_eq_ok_iff_denotes`). An escape of two hexadecimal digits
has two further forms, since its digits are read as a numeral that may have a sign and may be short: a plus sign
and one digit, and one digit that the closing quote follows.

A body that stands between quotes never ends in the middle of an escape, although an escape may take characters
that belong to the next one (`Stands.quotable`).
-/

namespace ScriptEngine.Lexer

/-- The escapes of one letter and what they stand for. -/
def controls : List (Char × Char) :=
  [('n', '\n'), ('\n', '\n'), ('t', '\t'), ('r', '\r'), ('a', '\x07'), ('b', '\x08'), ('f', '\x0c'), ('v', '\x0b'),
   ('\\', '\\'), ('"', '"'), ('\'', '\'')]

/-- The character is a hexadecimal digit of this value. -/
def HexDigit (c : Char) (value : Nat) : Prop := Number.digitValue? c = some value ∧ value < 16

/-- The number that decimal digits write. -/
def decimalValue (ds : List Char) : Nat := ds.foldl (fun n d => 10 * n + (d.toNat - 48)) 0

/-- In front of `behind`, the characters `lead` stand for `mean`. -/
inductive Stands : (lead behind mean : List Char) → Prop
  | plain {c behind} (backslash : c ≠ '\\') : Stands [c] behind [c]
  | control {e c behind} (entry : (e, c) ∈ controls) : Stands ['\\', e] behind [c]
  | blanks {gap behind} (blank : ∀ c ∈ gap, Text.isBlank c = true)
      (stop : ∀ c ∈ behind.head?, Text.isBlank c = false) : Stands ('\\' :: 'z' :: gap) behind []
  | hex {c d high low behind} (first : HexDigit c high) (second : HexDigit d low) :
      Stands ['\\', 'x', c, d] behind [Char.ofNat (16 * high + low)]
  /-- A plus sign in the place of the first digit. -/
  | signed {d value behind} (digit : HexDigit d value) : Stands ['\\', 'x', '+', d] behind [Char.ofNat value]
  /-- One digit only, at the end of the body. -/
  | short {d value} (digit : HexDigit d value) : Stands ['\\', 'x', d] [] [Char.ofNat value]
  | decimal {ds behind} (some' : ds ≠ []) (few : ds.length ≤ 3) (digits : Digits ds)
      (stop : ds.length = 3 ∨ NoDigit behind) (byte : decimalValue ds < 256) :
      Stands ('\\' :: ds) behind [Char.ofNat (decimalValue ds)]

/-- The body stands for the text, part by part. -/
inductive Denotes : (body text : List Char) → Prop
  | nil : Denotes [] []
  | cons {lead behind mean text} (stands : Stands lead behind mean) (more : Denotes behind text) :
      Denotes (lead ++ behind) (mean ++ text)

variable {quote c e : Char} {cs out body text lead behind mean : List Char}

/-! ## One step -/

theorem controlEscape?_iff : controlEscape? e = some c ↔ (e, c) ∈ controls := by
  constructor
  · intro found
    unfold controlEscape? at found
    split at found <;> cases found <;> decide
  · intro entry
    simp only [controls, List.mem_cons, Prod.mk.injEq, List.not_mem_nil, or_false] at entry
    rcases entry with ⟨rfl, rfl⟩ | ⟨rfl, rfl⟩ | ⟨rfl, rfl⟩ | ⟨rfl, rfl⟩ | ⟨rfl, rfl⟩ | ⟨rfl, rfl⟩ | ⟨rfl, rfl⟩ |
      ⟨rfl, rfl⟩ | ⟨rfl, rfl⟩ | ⟨rfl, rfl⟩ | ⟨rfl, rfl⟩ <;> rfl

theorem unescapeFrom_skip (skip : Nat) (blanks : Bool) :
    unescapeFrom out skip blanks cs = unescapeFrom out 0 blanks (cs.drop skip) := by
  induction cs generalizing skip with
  | nil => cases skip <;> simp [unescapeFrom]
  | cons c cs ih =>
    cases skip with
    | zero => rfl
    | succ skip => exact ih skip

/-- A character that starts no escape and is not passed over as a blank. -/
theorem unescapeFrom_plain {blanks : Bool} (backslash : c ≠ '\\') (blank : (blanks && Text.isBlank c) = false) :
    unescapeFrom out 0 blanks (c :: cs) = unescapeFrom (c :: out) 0 false cs := by
  rw [unescapeFrom.eq_def]
  simp [backslash, blank]

theorem unescapeFrom_blanks :
    unescapeFrom out 0 true cs = unescapeFrom out 0 false (cs.dropWhile Text.isBlank) := by
  induction cs with
  | nil => rfl
  | cons c cs ih =>
    by_cases blank : Text.isBlank c = true
    · rw [List.dropWhile_cons_of_pos blank, ← ih, unescapeFrom.eq_def]
      simp [blank]
    · rw [List.dropWhile_cons_of_neg blank, unescapeFrom.eq_def, unescapeFrom.eq_def out 0 false]
      simp [blank]

theorem unescapeFrom_control (entry : (e, c) ∈ controls) :
    unescapeFrom out 0 false ('\\' :: e :: cs) = unescapeFrom (c :: out) 0 false cs := by
  rw [unescapeFrom.eq_def]
  simp only [Bool.false_and, Bool.false_eq_true, if_false, ne_eq, not_true_eq_false, controlEscape?_iff.2 entry]
  exact unescapeFrom_skip 1 false

theorem unescapeFrom_z :
    unescapeFrom out 0 false ('\\' :: 'z' :: cs) = unescapeFrom out 0 false (cs.dropWhile Text.isBlank) := by
  rw [← unescapeFrom_blanks, unescapeFrom.eq_def]
  show unescapeFrom out 1 true ('z' :: cs) = _
  exact unescapeFrom_skip 1 true

theorem unescapeFrom_x : unescapeFrom out 0 false ('\\' :: 'x' :: cs) =
    match Number.unsigned? 16 (cs.take 2) with
    | some code => unescapeFrom (Char.ofNat code :: out) 0 false (cs.drop 2)
    | none => .error (.hexEscape (String.ofList (cs.take 2))) := by
  have skip : cs.drop (cs.take 2).length = cs.drop 2 :=
    List.drop_eq_drop_iff.2 (by rw [List.length_take]; omega)
  rw [unescapeFrom.eq_def]
  show (match Number.unsigned? 16 (cs.take 2) with
    | some code => unescapeFrom (Char.ofNat code :: out) (1 + (cs.take 2).length) false ('x' :: cs)
    | none => .error (.hexEscape (String.ofList (cs.take 2)))) = _
  cases Number.unsigned? 16 (cs.take 2) with
  | none => rfl
  | some code =>
    dsimp only
    rw [unescapeFrom_skip, Nat.add_comm, List.drop_succ_cons, skip]

/-- The digits of a decimal escape are taken as far as they go, three at most. -/
def decimalRun (cs : List Char) : List Char := (cs.take 3).takeWhile Char.isDigit

theorem controlEscape?_of_digit (digit : e.isDigit = true) : controlEscape? e = none := by
  unfold controlEscape?
  split <;> first | rfl | cases digit

theorem naturalFrom?_of_digits {ds : List Char} (digits : Digits ds) (acc : Nat) :
    Number.naturalFrom? 10 acc ds = some (ds.foldl (fun n d => 10 * n + (d.toNat - 48)) acc) := by
  induction ds generalizing acc with
  | nil => rfl
  | cons d ds ih =>
    obtain ⟨low, high⟩ := isDigit_iff.1 (digits d (.head _))
    have value : Number.digitValue? d = some (d.toNat - 48) := if_pos ⟨low, high⟩
    rw [Number.naturalFrom?, value]
    dsimp only
    rw [if_pos (by omega), ih fun c mem => digits c (.tail _ mem), List.foldl_cons, Nat.mul_comm]

theorem unescapeFrom_digit (digit : e.isDigit = true) : unescapeFrom out 0 false ('\\' :: e :: cs) =
    if decimalValue (decimalRun (e :: cs)) < 256 then
      unescapeFrom (Char.ofNat (decimalValue (decimalRun (e :: cs))) :: out) 0 false
        ((e :: cs).drop (decimalRun (e :: cs)).length)
    else .error (.decimalEscape (String.ofList (decimalRun (e :: cs)))) := by
  have run : e :: (cs.take 2).takeWhile Char.isDigit = decimalRun (e :: cs) :=
    (List.takeWhile_cons_of_pos digit).symm
  have value : Number.natural? 10 (decimalRun (e :: cs)) = some (decimalValue (decimalRun (e :: cs))) := by
    have digits : Digits (decimalRun (e :: cs)) := digits_takeWhile _
    rw [← run] at digits ⊢
    exact naturalFrom?_of_digits digits 0
  have z : e ≠ 'z' := by rintro rfl; cases digit
  have x : e ≠ 'x' := by rintro rfl; cases digit
  rw [unescapeFrom.eq_def]
  simp only [Bool.false_and, Bool.false_eq_true, if_false, ne_eq, not_true_eq_false, controlEscape?_of_digit digit, z, x,
    digit, if_true, run, value]
  split
  · exact unescapeFrom_skip _ false
  · rfl

theorem unescapeFrom_other (control : controlEscape? e = none) (z : e ≠ 'z') (x : e ≠ 'x') (digit : ¬e.isDigit = true) :
    unescapeFrom out 0 false ('\\' :: e :: cs) = .error (.escape e) := by
  rw [unescapeFrom.eq_def]
  simp only [Bool.false_and, Bool.false_eq_true, if_false, ne_eq, not_true_eq_false, control, z, x, digit]

/-! ## Hexadecimal digits -/

variable {d : Char} {value code : Nat}

theorem naturalFrom?_cons {acc n : Nat} : Number.naturalFrom? 16 acc (c :: cs) = some n ↔
    ∃ value, HexDigit c value ∧ Number.naturalFrom? 16 (acc * 16 + value) cs = some n := by
  rw [Number.naturalFrom?]
  cases found : Number.digitValue? c with
  | none => simp [HexDigit, found]
  | some value =>
    by_cases small : value < 16
    · simp [HexDigit, found, small]
    · simp only [HexDigit, found, small, Option.some.injEq, if_false]
      constructor
      · rintro ⟨⟩
      · rintro ⟨_, ⟨rfl, small'⟩, -⟩
        exact absurd small' small

theorem unsigned?_of_ne_plus (plus : c ≠ '+') :
    Number.unsigned? 16 (c :: cs) = (Number.naturalFrom? 16 0 (c :: cs)).filter (· ≤ 0xffffffffffffffff) := by
  unfold Number.unsigned?
  split
  · rename_i same
    cases same
    exact absurd rfl plus
  · rfl

theorem HexDigit.ne_plus (digit : HexDigit c value) : c ≠ '+' := by
  rintro rfl
  cases digit.1

theorem HexDigit.ne_backslash (digit : HexDigit c value) : c ≠ '\\' := by
  rintro rfl
  cases digit.1

theorem unsigned?_one (digit : HexDigit d value) : Number.unsigned? 16 [d] = some value := by
  have read : Number.naturalFrom? 16 0 [d] = some value :=
    naturalFrom?_cons.2 ⟨value, digit, by rw [Nat.zero_mul, Nat.zero_add]; rfl⟩
  have small := digit.2
  rw [unsigned?_of_ne_plus digit.ne_plus, read, Option.filter_some, if_pos (decide_eq_true (by omega))]

theorem unsigned?_plus (digit : HexDigit d value) : Number.unsigned? 16 ['+', d] = some value :=
  (show Number.unsigned? 16 ['+', d] = (Number.naturalFrom? 16 0 [d]).filter (· ≤ 0xffffffffffffffff) from rfl).trans
    ((unsigned?_of_ne_plus digit.ne_plus).symm.trans (unsigned?_one digit))

theorem unsigned?_two {high low : Nat} (first : HexDigit c high) (second : HexDigit d low) :
    Number.unsigned? 16 [c, d] = some (16 * high + low) := by
  have read : Number.naturalFrom? 16 0 [c, d] = some (16 * high + low) :=
    naturalFrom?_cons.2 ⟨high, first, naturalFrom?_cons.2 ⟨low, second, by
      rw [Nat.zero_mul, Nat.zero_add, Nat.mul_comm]
      rfl⟩⟩
  have small := first.2
  have small' := second.2
  rw [unsigned?_of_ne_plus first.ne_plus, read, Option.filter_some, if_pos (decide_eq_true (by omega))]

/-- The characters that an escape of hexadecimal digits takes are in one of the three forms. -/
theorem stands_of_unsigned? (found : Number.unsigned? 16 (cs.take 2) = some code) :
    Stands ('\\' :: 'x' :: cs.take 2) (cs.drop 2) [Char.ofNat code] := by
  rcases cs with _ | ⟨c, _ | ⟨d, behind⟩⟩
  · cases found
  · by_cases plus : c = '+'
    · subst plus
      cases found
    · have read : Number.unsigned? 16 [c] = some code := found
      rw [unsigned?_of_ne_plus plus] at read
      obtain ⟨value, digit, rest⟩ := naturalFrom?_cons.1 (Option.filter_eq_some_iff.1 read).1
      rw [Nat.zero_mul, Nat.zero_add] at rest
      cases rest
      exact .short digit
  · have read : Number.unsigned? 16 [c, d] = some code := found
    by_cases plus : c = '+'
    · subst plus
      have read : (Number.naturalFrom? 16 0 [d]).filter (· ≤ 0xffffffffffffffff) = some code := read
      obtain ⟨value, digit, rest⟩ := naturalFrom?_cons.1 (Option.filter_eq_some_iff.1 read).1
      rw [Nat.zero_mul, Nat.zero_add] at rest
      cases rest
      exact .signed digit
    · rw [unsigned?_of_ne_plus plus] at read
      obtain ⟨high, first, rest⟩ := naturalFrom?_cons.1 (Option.filter_eq_some_iff.1 read).1
      obtain ⟨low, second, rest⟩ := naturalFrom?_cons.1 rest
      rw [Nat.zero_mul, Nat.zero_add, Nat.mul_comm] at rest
      cases rest
      exact .hex first second

/-! ## Cutting a body into parts -/

theorem decimalRun_eq (cs : List Char) : decimalRun cs = (cs.takeWhile Char.isDigit).take 3 :=
  List.take_takeWhile.symm

theorem decimalRun_append (cs : List Char) : decimalRun cs ++ cs.drop (decimalRun cs).length = cs :=
  List.prefix_iff_eq_append.1 ((List.takeWhile_prefix _).trans (List.take_prefix 3 cs))

theorem head_dropWhile {p : Char → Bool} : ∀ c ∈ (cs.dropWhile p).head?, p c = false := by
  intro c mem
  have first := List.head?_dropWhile_not p cs
  rwa [Option.mem_def.1 mem] at first

/-- Behind a run that is not full comes no digit. -/
theorem decimalRun_stop (cs : List Char) :
    (decimalRun cs).length = 3 ∨ NoDigit (cs.drop (decimalRun cs).length) := by
  rw [decimalRun_eq]
  rcases Nat.lt_or_ge (cs.takeWhile Char.isDigit).length 3 with few | many
  · right
    have split := List.prefix_iff_eq_append.1 (List.takeWhile_prefix (l := cs) Char.isDigit)
    rw [List.take_of_length_le few.le]
    have behind : cs.drop (cs.takeWhile Char.isDigit).length = cs.dropWhile Char.isDigit :=
      List.append_cancel_left (split.trans List.takeWhile_append_dropWhile.symm)
    rw [behind]
    exact head_dropWhile
  · left
    rw [List.length_take]
    omega

theorem decimalRun_stands (digit : e.isDigit = true) (byte : decimalValue (decimalRun (e :: cs)) < 256) :
    Stands ('\\' :: decimalRun (e :: cs)) ((e :: cs).drop (decimalRun (e :: cs)).length)
      [Char.ofNat (decimalValue (decimalRun (e :: cs)))] := by
  have few : (decimalRun (e :: cs)).length ≤ 3 :=
    ((List.takeWhile_prefix _).length_le).trans (List.length_take_le _ _)
  have some' : decimalRun (e :: cs) ≠ [] := by
    rw [decimalRun, List.take_succ_cons, List.takeWhile_cons_of_pos digit]
    exact List.cons_ne_nil _ _
  exact .decimal some' few (digits_takeWhile _) (decimalRun_stop _) byte

theorem decimalRun_of_digits {ds behind : List Char} (few : ds.length ≤ 3) (digits : Digits ds)
    (stop : ds.length = 3 ∨ NoDigit behind) : decimalRun (ds ++ behind) = ds := by
  rw [decimalRun_eq]
  rcases stop with full | stop
  · rw [List.takeWhile_append_of_pos digits, List.take_left' full]
  · rw [takeWhile_digits digits stop, List.take_of_length_le few]

/-- What happens first to a body: it is used up, its first part is resolved, or it is refused. -/
theorem unescapeFrom_cases (out cs : List Char) :
    (cs = [] ∧ unescapeFrom out 0 false cs = .ok out.reverse) ∨
    (∃ lead behind mean, cs = lead ++ behind ∧ lead ≠ [] ∧ Stands lead behind mean ∧
      unescapeFrom out 0 false cs = unescapeFrom (mean.reverse ++ out) 0 false behind) ∨
    ∃ flaw, unescapeFrom out 0 false cs = .error flaw ∧ (flaw = .unfinishedEscape → cs = ['\\']) := by
  rcases cs with _ | ⟨c, cs⟩
  · exact .inl ⟨rfl, rfl⟩
  by_cases backslash : c = '\\'
  · subst backslash
    rcases cs with _ | ⟨e, cs⟩
    · exact .inr (.inr ⟨.unfinishedEscape, rfl, fun _ => rfl⟩)
    cases control : controlEscape? e with
    | some c =>
      have entry := controlEscape?_iff.1 control
      exact .inr (.inl ⟨['\\', e], cs, [c], rfl, by simp, .control entry, unescapeFrom_control entry⟩)
    | none =>
      by_cases z : e = 'z'
      · subst z
        refine .inr (.inl ⟨'\\' :: 'z' :: cs.takeWhile Text.isBlank, cs.dropWhile Text.isBlank, [], ?_, by simp,
          .blanks (fun c mem => List.mem_takeWhile_imp mem) head_dropWhile, unescapeFrom_z⟩)
        simp
      by_cases x : e = 'x'
      · subst x
        rw [unescapeFrom_x]
        cases found : Number.unsigned? 16 (cs.take 2) with
        | some code =>
          exact .inr (.inl ⟨'\\' :: 'x' :: cs.take 2, cs.drop 2, [Char.ofNat code], by simp, by simp,
            stands_of_unsigned? found, rfl⟩)
        | none => exact .inr (.inr ⟨_, rfl, nofun⟩)
      by_cases digit : e.isDigit = true
      · rw [unescapeFrom_digit digit]
        split
        · rename_i byte
          exact .inr (.inl ⟨'\\' :: decimalRun (e :: cs), _, _, by rw [List.cons_append, decimalRun_append], by simp,
            decimalRun_stands digit byte, rfl⟩)
        · exact .inr (.inr ⟨_, rfl, nofun⟩)
      · exact .inr (.inr ⟨_, unescapeFrom_other control z x digit, nofun⟩)
  · exact .inr (.inl ⟨[c], cs, [c], rfl, by simp, .plain backslash, unescapeFrom_plain backslash rfl⟩)

/-- Every part is resolved to what it stands for. -/
theorem unescapeFrom_of_stands (stands : Stands lead behind mean) (out : List Char) :
    unescapeFrom out 0 false (lead ++ behind) = unescapeFrom (mean.reverse ++ out) 0 false behind := by
  cases stands with
  | plain backslash => exact unescapeFrom_plain backslash rfl
  | control entry => exact unescapeFrom_control entry
  | @blanks gap _ blank stop =>
    have rest : (gap ++ behind).dropWhile Text.isBlank = behind := by
      rw [List.dropWhile_append_of_pos blank]
      cases behind with
      | nil => rfl
      | cons c behind => rw [List.dropWhile_cons_of_neg (by simp [stop c rfl])]
    rw [List.cons_append, List.cons_append, unescapeFrom_z, rest]
    rfl
  | @hex c d high low _ first second =>
    show unescapeFrom out 0 false ('\\' :: 'x' :: (c :: d :: behind)) = _
    rw [unescapeFrom_x, show (c :: d :: behind).take 2 = [c, d] from rfl, unsigned?_two first second]
    rfl
  | @signed d value _ digit =>
    show unescapeFrom out 0 false ('\\' :: 'x' :: ('+' :: d :: behind)) = _
    rw [unescapeFrom_x, show ('+' :: d :: behind).take 2 = ['+', d] from rfl, unsigned?_plus digit]
    rfl
  | @short d value digit =>
    show unescapeFrom out 0 false ('\\' :: 'x' :: [d]) = _
    rw [unescapeFrom_x, show [d].take 2 = [d] from rfl, unsigned?_one digit]
    rfl
  | @decimal ds _ some' few digits stop byte =>
    have run := decimalRun_of_digits few digits stop
    obtain ⟨e, ds, rfl⟩ := List.exists_cons_of_ne_nil some'
    rw [List.cons_append, List.cons_append, unescapeFrom_digit (digits e (.head _)), ← List.cons_append, run,
      if_pos byte, List.drop_left]
    rfl

theorem unescapeFrom_of_denotes (denotes : Denotes body text) (out : List Char) :
    unescapeFrom out 0 false body = .ok (out.reverse ++ text) := by
  induction denotes generalizing out with
  | nil => rw [List.append_nil]; rfl
  | cons stands more ih =>
    rw [unescapeFrom_of_stands stands, ih, List.reverse_append, List.reverse_reverse, List.append_assoc]

theorem denotes_of_unescapeFrom (done : unescapeFrom out 0 false body = .ok cs) :
    ∃ text, cs = out.reverse ++ text ∧ Denotes body text := by
  induction length : body.length using Nat.strongRecOn generalizing body out with
  | _ n ih =>
    rcases unescapeFrom_cases out body with
      ⟨rfl, same⟩ | ⟨lead, behind, mean, rfl, some', stands, same⟩ | ⟨flaw, same, -⟩
    · rw [same] at done
      cases done
      exact ⟨[], (List.append_nil _).symm, .nil⟩
    · rw [same] at done
      have shorter : behind.length < n := by
        have := List.length_pos_of_ne_nil some'
        rw [List.length_append] at length
        omega
      obtain ⟨text, rfl, denotes⟩ := ih _ shorter done rfl
      exact ⟨mean ++ text, by rw [List.reverse_append, List.reverse_reverse, List.append_assoc], .cons stands denotes⟩
    · rw [same] at done
      cases done

/-! ## Bodies between quotes -/

theorem Quotable.of_plain (quotable : Quotable quote (c :: cs)) (backslash : c ≠ '\\') : Quotable quote cs := by
  cases quotable with
  | plain _ _ _ more => exact more
  | escaped => exact absurd rfl backslash

theorem Quotable.of_escaped (quotable : Quotable quote ('\\' :: c :: cs)) : Quotable quote cs := by
  cases quotable with
  | plain _ backslash => exact absurd rfl backslash
  | escaped more => exact more

theorem Quotable.of_append (quotable : Quotable quote (lead ++ cs)) (plain : ∀ c ∈ lead, c ≠ '\\') :
    Quotable quote cs := by
  induction lead with
  | nil => exact quotable
  | cons c lead ih =>
    exact ih (quotable.of_plain (plain c (.head _))) fun d mem => plain d (.tail _ mem)

theorem ne_backslash_of_digit (digit : c.isDigit = true) : c ≠ '\\' := by
  rintro rfl
  cases digit

/-- Behind a part, whatever it has taken, comes a body again. -/
theorem Stands.quotable (stands : Stands lead behind mean) (quotable : Quotable quote (lead ++ behind)) :
    Quotable quote behind := by
  cases stands with
  | plain backslash => exact quotable.of_plain backslash
  | control => exact quotable.of_escaped
  | blanks blank =>
    refine Quotable.of_append (Quotable.of_escaped quotable) fun c mem => ?_
    rintro rfl
    exact absurd (blank _ mem) (by decide)
  | hex first second => exact ((Quotable.of_escaped quotable).of_plain first.ne_backslash).of_plain second.ne_backslash
  | signed digit => exact ((Quotable.of_escaped quotable).of_plain (by decide)).of_plain digit.ne_backslash
  | short => exact .nil
  | @decimal ds _ some' _ digits =>
    obtain ⟨e, ds, rfl⟩ := List.exists_cons_of_ne_nil some'
    exact (Quotable.of_escaped quotable).of_append fun c mem => ne_backslash_of_digit (digits c (.tail _ mem))

theorem unescapeFrom_ne_unfinished (quotable : Quotable quote body) (out : List Char) :
    unescapeFrom out 0 false body ≠ .error .unfinishedEscape := by
  induction length : body.length using Nat.strongRecOn generalizing body out with
  | _ n ih =>
    rcases unescapeFrom_cases out body with
      ⟨rfl, same⟩ | ⟨lead, behind, mean, rfl, some', stands, same⟩ | ⟨flaw, same, unfinished⟩ <;> rw [same]
    · exact nofun
    · have shorter : behind.length < n := by
        have := List.length_pos_of_ne_nil some'
        rw [List.length_append] at length
        omega
      exact ih _ shorter (stands.quotable quotable) _ rfl
    · rintro ⟨⟩
      cases unfinished rfl
      cases quotable with
      | plain _ backslash => exact absurd rfl backslash

/-- The escapes of a body are resolved exactly if it can be cut into characters and escapes, and the result is what
these stand for; between quotes no escape is cut off. -/
theorem unescape_eq_ok_iff_denotes : (∀ s : String, unescape body = .ok s ↔ Denotes body s.toList) ∧
    (Quotable quote body → unescape body ≠ .error .unfinishedEscape) := by
  constructor
  · intro s
    constructor
    · intro done
      obtain ⟨cs, resolved, rfl⟩ : ∃ cs, unescapeFrom [] 0 false body = .ok cs ∧ String.ofList cs = s := by
        unfold unescape at done
        cases resolved : unescapeFrom [] 0 false body with
        | ok cs => rw [resolved] at done; cases done; exact ⟨cs, rfl, rfl⟩
        | error => rw [resolved] at done; cases done
      obtain ⟨text, rfl, denotes⟩ := denotes_of_unescapeFrom resolved
      rwa [String.toList_ofList]
    · intro denotes
      rw [unescape, unescapeFrom_of_denotes denotes]
      exact congrArg Except.ok (String.ofList_toList ..)
  · intro quotable done
    have fresh := unescapeFrom_ne_unfinished quotable []
    unfold unescape at done
    cases resolved : unescapeFrom [] 0 false body with
    | ok => rw [resolved] at done; cases done
    | error flaw => rw [resolved] at done fresh; cases done; exact fresh rfl

/-- An escape of hexadecimal digits that the closing quote cuts short, behind one with a sign. -/
theorem unescape_eq_ok_iff_denotes_short : unescape "\\x+a\\x1".toList = .ok "\n\x01" ∧
    unescape "\\x+a\\x1".toList ≠ .error .unfinishedEscape := by
  have ten : HexDigit 'a' 10 := ⟨rfl, by decide⟩
  have one : HexDigit '1' 1 := ⟨rfl, by decide⟩
  have denotes : Denotes "\\x+a\\x1".toList "\n\x01".toList := .cons (.signed ten) (.cons (.short one) .nil)
  have quotable : Quotable '"' "\\x+a\\x1".toList :=
    .escaped (.plain (by decide) (by decide) (by decide) (.plain (by decide) (by decide) (by decide)
      (.escaped (.plain (by decide) (by decide) (by decide) .nil))))
  obtain ⟨value, ends⟩ : (∀ s : String, unescape "\\x+a\\x1".toList = .ok s ↔ Denotes "\\x+a\\x1".toList s.toList) ∧
      (Quotable '"' "\\x+a\\x1".toList → unescape "\\x+a\\x1".toList ≠ .error .unfinishedEscape) :=
    unescape_eq_ok_iff_denotes
  exact ⟨(value _).2 denotes, ends quotable⟩

end ScriptEngine.Lexer
