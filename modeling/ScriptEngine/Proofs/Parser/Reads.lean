import ScriptEngine.Proofs.Parser.WellFormed

/-!
# What rules read

`Reads p kinds F Q` says that `p` succeeds on tokens of the given kinds if the token after them is of a
kind in `F`, that it stops before that token, and that its result satisfies `Q`. The lemmas follow the
steps of a rule: looking at a token changes nothing, moving past a token takes the first kind.
-/

namespace ScriptEngine

namespace Parser

variable {α β : Type}

def Reads (p : Parser α) (kinds : List Kind) (F : Kind → Prop) (Q : α → Prop) : Prop :=
  ∀ (tokens : List Token) (next : Token) rest, tokens.map Token.kind = kinds → F next.kind →
    ∃ a, p (tokens ++ next :: rest) = .ok (a, next :: rest) ∧ Q a

theorem exists_next (tokens : List Token) (next : Token) (rest : List Token) :
    ∃ t more, tokens ++ next :: rest = t :: more ∧
      t.kind = (tokens.map Token.kind).head?.getD next.kind := by
  cases tokens with
  | nil => exact ⟨next, rest, rfl, rfl⟩
  | cons t tokens => exact ⟨t, tokens ++ next :: rest, rfl, rfl⟩

namespace Reads

variable {p : Parser α} {f : α → Parser β} {kinds kinds' : List Kind} {kind : Kind}
  {F F' : Kind → Prop} {P : α → Prop} {Q : β → Prop}

theorem pure {a : α} (h : P a) : Reads (Pure.pure a : Parser α) [] F P := by
  intro tokens next rest spelled _
  obtain rfl := List.map_eq_nil_iff.1 spelled
  exact ⟨a, rfl, h⟩

theorem mono {P' : α → Prop} (h : Reads p kinds F' P) (follow : ∀ k, F k → F' k)
    (result : ∀ a, P a → P' a) : Reads p kinds F P' := by
  intro tokens next rest spelled hnext
  obtain ⟨a, ran, ha⟩ := h tokens next rest spelled (follow _ hnext)
  exact ⟨a, ran, result a ha⟩

/-- One rule after another. What the first needs to follow is what the second begins with. -/
theorem bind (first : Reads p kinds F' P) (second : ∀ a, P a → Reads (f a) kinds' F Q)
    (meets : ∀ k, F k → F' (kinds'.head?.getD k)) : Reads (p >>= f) (kinds ++ kinds') F Q := by
  intro tokens next rest spelled hnext
  obtain ⟨before, after, rfl, hbefore, hafter⟩ := List.map_eq_append_iff.1 spelled
  obtain ⟨t, u, same, ht⟩ := exists_next after next rest
  replace ht : F' t.kind := ht ▸ hafter ▸ meets _ hnext
  obtain ⟨a, ran, ha⟩ := first before t u hbefore ht
  obtain ⟨b, ran', hb⟩ := second a ha after next rest hafter hnext
  refine ⟨b, ?_, hb⟩
  rw [List.append_assoc, same]
  simp only [Bind.bind, StateT.bind, Except.bind, ran]
  rw [← same]
  exact ran'

/-- A rule whose result is known without reading. -/
theorem given {a : α} (next : Reads (f a) kinds F Q) : Reads (Pure.pure a >>= f) kinds F Q :=
  next

theorem map {γ : Type} {g : γ → α} {q : Parser γ} (next : Reads (q >>= fun c => f (g c)) kinds F Q) :
    Reads (g <$> q >>= f) kinds F Q := by
  have same : g <$> q >>= f = q >>= fun c => f (g c) := by
    funext s
    simp only [Bind.bind, StateT.bind, Functor.map, StateT.map, Except.bind]
    cases q s <;> rfl
  rwa [same]

/-- A step that leaves the tokens as they are. -/
theorem still {b : List Token → α} (ran : ∀ s, p s = .ok (b s, s))
    (next : ∀ (tokens : List Token) (next : Token) rest, tokens.map Token.kind = kinds → F next.kind →
      Reads (f (b (tokens ++ next :: rest))) kinds (· = next.kind) Q) : Reads (p >>= f) kinds F Q := by
  intro tokens t rest spelled ht
  simp only [Bind.bind, StateT.bind, Except.bind, ran]
  exact next tokens t rest spelled ht tokens t rest spelled rfl

/-- A step past one token. -/
theorem past {a : α} (ran : ∀ t u rest, t.kind = kind → p (t :: u :: rest) = .ok (a, u :: rest))
    (next : Reads (f a) kinds F Q) : Reads (p >>= f) (kind :: kinds) F Q := by
  intro tokens t rest spelled ht
  obtain ⟨u, after, rfl, hu, hafter⟩ := List.map_eq_cons_iff.1 spelled
  obtain ⟨b, ran', hb⟩ := next after t rest hafter ht
  refine ⟨b, ?_, hb⟩
  obtain ⟨v, more, same, -⟩ := exists_next after t rest
  rw [List.cons_append, same]
  simp only [Bind.bind, StateT.bind, Except.bind, ran u v more hu]
  rw [← same]
  exact ran'

theorem line {f : Nat → Parser β} (next : ∀ line, Reads (f line) kinds F Q) :
    Reads (Parser.line >>= f) kinds F Q := by
  refine still (b := fun s => ((s.head?.map Token.position).getD .start).line)
    (fun s => ?_) fun tokens t rest spelled ht => (next _).mono (by rintro _ rfl; exact ht) fun _ h => h
  cases s <;> rfl

/-- Looking at the next token. -/
theorem peek {f : Kind → Parser β} (next : ∀ k, F k → Reads (f (kinds.head?.getD k)) kinds (· = k) Q) :
    Reads (Parser.peek >>= f) kinds F Q := by
  refine still (b := nextKind) (fun s => ?_) fun tokens t rest spelled ht => ?_
  · cases s <;> rfl
  · obtain ⟨u, more, same, hu⟩ := exists_next tokens t rest
    rw [same, show nextKind (u :: more) = _ from hu, spelled]
    exact next t.kind ht

/-- Looking at a token that is known. -/
theorem sees {f : Kind → Parser β} (next : Reads (f kind) (kind :: kinds) F Q) :
    Reads (Parser.peek >>= f) (kind :: kinds) F Q :=
  peek fun k hk => next.mono (by rintro _ rfl; exact hk) fun _ h => h

/-- Looking at the token that follows. -/
theorem meets {f : Kind → Parser β} (next : ∀ k, F k → Reads (f k) [] (· = k) Q) :
    Reads (Parser.peek >>= f) [] F Q :=
  peek next

/-- Looking at the token after a known one. -/
theorem peekSecond {f : Kind → Parser β}
    (next : ∀ k, F k → Reads (f (kinds.head?.getD k)) (kind :: kinds) (· = k) Q) :
    Reads (Parser.peekSecond >>= f) (kind :: kinds) F Q := by
  refine still (b := fun s => nextKind s.tail) (fun s => ?_) fun tokens t rest spelled ht => ?_
  · match s with
    | [] | [_] | _ :: _ :: _ => rfl
  · obtain ⟨u, after, rfl, hu, hafter⟩ := List.map_eq_cons_iff.1 spelled
    obtain ⟨v, more, same, hv⟩ := exists_next after t rest
    rw [List.cons_append, List.tail_cons, same, show nextKind (v :: more) = _ from hv, hafter]
    exact next t.kind ht

theorem advance {f : Unit → Parser β} (next : Reads (f ()) kinds F Q) :
    Reads (Parser.advance >>= f) (kind :: kinds) F Q :=
  past (fun _ _ _ _ => rfl) next

theorem expect {f : Unit → Parser β} (next : Reads (f ()) kinds F Q) :
    Reads (Parser.expect kind >>= f) (kind :: kinds) F Q := by
  refine past (fun t u rest found => ?_) next
  subst found
  simp [Parser.expect, Parser.peek, Parser.advance, get, getThe, MonadStateOf.get, StateT.get, Bind.bind,
    StateT.bind, Except.bind, Pure.pure, Except.pure, StateT.pure, set, StateT.set]

theorem expectName {name : String} {f : String → Parser β} (next : Reads (f name) kinds F Q) :
    Reads (Parser.expectName >>= f) (.name name :: kinds) F Q := by
  refine past (fun t u rest found => ?_) next
  simp [Parser.expectName, Parser.peek, Parser.advance, get, getThe, MonadStateOf.get, StateT.get,
    Bind.bind, StateT.bind, Except.bind, Pure.pure, Except.pure, StateT.pure, set, StateT.set, found]

/-- Eating a token that is there. -/
theorem eats {f : Bool → Parser β} (next : Reads (f true) kinds F Q) :
    Reads (Parser.eat kind >>= f) (kind :: kinds) F Q := by
  refine past (fun t u rest found => ?_) next
  simp [Parser.eat, Parser.peek, Parser.advance, get, getThe, MonadStateOf.get, StateT.get,
    Bind.bind, StateT.bind, Except.bind, Pure.pure, Except.pure, StateT.pure, set, StateT.set, found]

/-- Eating a token that is not there. -/
theorem spares {f : Bool → Parser β} (other : ∀ k, F k → kinds.head?.getD k ≠ kind)
    (next : Reads (f false) kinds F Q) : Reads (Parser.eat kind >>= f) kinds F Q := by
  intro tokens t rest spelled ht
  obtain ⟨u, more, same, hu⟩ := exists_next tokens t rest
  replace hu : u.kind ≠ kind := hu ▸ spelled ▸ other _ ht
  have ran : Parser.eat kind (tokens ++ t :: rest) = .ok (false, tokens ++ t :: rest) := by
    rw [same]
    simp [Parser.eat, Parser.peek, get, getThe, MonadStateOf.get, StateT.get, Bind.bind, StateT.bind,
      Except.bind, Pure.pure, Except.pure, StateT.pure, hu]
  simp only [Bind.bind, StateT.bind, Except.bind, ran]
  exact next tokens t rest spelled ht

/-- Skipping semicolons where there are none. -/
theorem unseparated {f : Unit → Parser β} (other : ∀ k, F k → kinds.head?.getD k ≠ .symbol .semicolon)
    (next : Reads (f ()) kinds F Q) : Reads (Parser.skipSemicolons >>= f) kinds F Q := by
  intro tokens t rest spelled ht
  obtain ⟨u, more, same, hu⟩ := exists_next tokens t rest
  replace hu : u.kind ≠ .symbol .semicolon := hu ▸ spelled ▸ other _ ht
  have ran : Parser.skipSemicolons (tokens ++ t :: rest) = .ok ((), tokens ++ t :: rest) := by
    rw [same]
    simp [Parser.skipSemicolons, modify, modifyGet, MonadStateOf.modifyGet, StateT.modifyGet,
      Pure.pure, Except.pure, hu]
  simp only [Bind.bind, StateT.bind, Except.bind, ran]
  exact next tokens t rest spelled ht

end Reads

end Parser

end ScriptEngine
