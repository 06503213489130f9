import ScriptEngine.Proofs.Compiler.Balance

/-!
# Compiled chunks pass the verifier

The verifier is the last stage of `compile`, and it never has anything to say: whatever emission and
finishing give for a parsed program is laid out, so a program that is not compiled exceeds a limit or
has a `break` or `...` where none is allowed.
-/

namespace ScriptEngine.Compiler

/-- The unit that a chunk is compiled to, before it is verified. -/
def emitChunk (source : String) (body : Block) : Except CompileError CodeUnit := do
  let compileBody : Compiler Unit := do
    compileStatements none body
    emit .ret 0 0
  let ((), s) ← compileBody.run (.root source)
  s.builder.finish s.id s.name s.source

theorem compile_eq (source : String) (body : Block) :
    compile source body = (do
      let unit ← emitChunk source body
      (Verifier.verify unit).mapError .verification
      pure unit) := by
  simp only [compile, emitChunk, bind_assoc]

/-- Where a chunk starts. -/
def Point.root : Point where
  upvalues := 0
  enclosing := []
  isVararg := true
  id := 0
  firstId := 1
  awaited := []
  passed := []
  locals := []
  depth := 1
  closed := 0

theorem Point.root_scoped : Point.root.Scoped where
  depth := Nat.le_refl 1
  closed := Nat.le_refl 0
  locals l hl := by cases hl
  enclosing q hq := by cases hq

theorem at_root (source : String) : At .root (.root source) where
  upvalues := rfl
  enclosing := rfl
  isVararg := rfl
  ids := ⟨rfl, Nat.le_refl 1⟩
  locals := rfl
  depth := rfl
  closed := rfl
  drafted := ⟨_, .initial 0 true 0 1, Drafted.not_open_initial 0 true⟩

variable {N : Float → Prop} {source : String} {body : Block}

/-- Emission and finishing give a unit that is laid out, or fail for a limit. -/
theorem emitChunk_outcome (h : body.Regular N) :
    (∀ u, emitChunk source body = .ok u → Layout 0 u) ∧
      ∀ e, emitChunk source body = .error e → e.IsLimit := by
  have ran := body_leads Point.root_scoped rfl rfl []
    (fun p hp => compileStatements_brings body none h p hp (.none' p)) (at_root source)
  unfold emitChunk
  cases done : StateT.run (do compileStatements none body; emit .ret 0 0 : Compiler Unit)
      (.root source) with
  | error e =>
    simp only [done]
    refine ⟨fun u ok => ?_, fun e' failed => ?_⟩
    · cases ok
    · cases failed
      exact ran.error done
  | ok r =>
    obtain ⟨⟨⟩, s⟩ := r
    obtain ⟨q, t, hq, grows, settled, ht, rfl⟩ := ran.ok done
    have upvalues : q.upvalues = 0 := grows.upvalues
    have finished := finish_leads hq ht settled (Eq.refl (Builder.finish _ t.id t.name t.source))
    rw [upvalues] at finished
    simp only [done]
    exact ⟨fun u ok => (finished.1 u ok).1, finished.2⟩

/-- The verifier accepts all of it. -/
theorem compile_eq_emitChunk (h : body.Regular N) : compile source body = emitChunk source body := by
  rw [compile_eq]
  cases emitted : emitChunk source body with
  | error e => rfl
  | ok u =>
    have accepted := ((emitChunk_outcome h).1 u emitted).verify_eq
    simp only [Bind.bind, Except.bind, accepted]
    rfl

/-- Compiled chunks are laid out. -/
theorem compile_layout {u : CodeUnit} (h : body.Regular N) (compiled : compile source body = .ok u) :
    Layout 0 u := by
  rw [compile_eq_emitChunk h] at compiled
  exact (emitChunk_outcome h).1 u compiled

theorem compileSource_layout {text label : String} {u : CodeUnit}
    (compiled : compileSource text label = .ok u) : Layout 0 u := by
  unfold compileSource at compiled
  cases parsed : Parser.parse text with
  | error e => simp [parsed, Bind.bind, Except.bind, Except.mapError] at compiled
  | ok body =>
    simp only [parsed, Bind.bind, Except.bind, Except.mapError] at compiled
    split at compiled
    · cases compiled
    · rename_i unit ok
      cases compiled
      exact compile_layout (Parser.parse_regular parsed) ok

/-- A text that is parsed and emitted is compiled. -/
theorem compileSource_of_emitted {text label : String} {body : Block} {u : CodeUnit}
    (parsed : Parser.parse text = .ok body) (emitted : emitChunk label body = .ok u) :
    compileSource text label = .ok u := by
  have compiled : compile label body = emitChunk label body :=
    compile_eq_emitChunk (Parser.parse_regular parsed)
  rw [emitted] at compiled
  simp only [compileSource, parsed, compiled, Bind.bind, Except.bind, Except.mapError]

/-- What the parser produces is compiled to a unit that the verifier accepts together with all units
nested in it, or it exceeds a limit; no defect of the compiler itself ever shows. -/
theorem compile_verified_or_limit (text label : String) (body : Block)
    (parsed : Parser.parse text = .ok body) :
    (∀ u, emitChunk label body = .ok u →
      compile label body = .ok u ∧ ∀ v ∈ u.walk, Verifier.verify v = .ok ()) ∧
    ∀ e, compile label body = .error e → e.IsLimit := by
  have regular := Parser.parse_regular parsed
  refine ⟨fun u emitted => ⟨?_, fun v nested => ?_⟩, fun e failed => ?_⟩
  · rw [compile_eq_emitChunk regular, emitted]
  · obtain ⟨n, layout⟩ := ((emitChunk_outcome regular).1 u emitted).of_mem_walk v nested
    exact layout.verify_eq
  · rw [compile_eq_emitChunk regular] at failed
    exact (emitChunk_outcome regular).2 e failed

/-- The string that a constant is, if it is one. -/
def string? : Option Value → Option String
  | some (.string s) => some s
  | _ => none

theorem string?_eq_some {v : Option Value} {s : String} : string? v = some s ↔ v = some (.string s) := by
  cases v with
  | none => simp [string?]
  | some v => cases v <;> simp [string?]

-- numbers keep the equality of values from being decided in general
instance {v : Option Value} {s : String} : Decidable (v = some (.string s)) :=
  decidable_of_iff _ string?_eq_some

theorem any_isNil {v : Option Value} : v.any Value.isNil = true ↔ v = some .nil := by
  cases v with
  | none => simp
  | some v => cases v <;> simp [Value.isNil]

instance {v : Option Value} : Decidable (v = some .nil) := decidable_of_iff _ any_isNil

/-- What is there if a test of it succeeds. -/
theorem exists_of_any {ε α : Type} {x : Except ε α} {p : α → Bool} (h : x.toOption.any p = true) :
    ∃ a, x = .ok a ∧ p a = true := by
  cases x with
  | ok a => exact ⟨a, rfl, h⟩
  | error => cases h

/-- A text whose emitted unit passes a test is compiled to that unit. -/
theorem compileSource_of_any {text label : String} {P : CodeUnit → Prop} [DecidablePred P]
    (h : ((Parser.parse text).toOption.any fun body =>
      (emitChunk label body).toOption.any fun u => decide (P u)) = true) :
    ∃ u, compileSource text label = .ok u ∧ P u := by
  obtain ⟨body, parsed, h⟩ := exists_of_any h
  obtain ⟨u, emitted, h⟩ := exists_of_any h
  exact ⟨u, compileSource_of_emitted parsed emitted, of_decide_eq_true h⟩

/-- A chunk with a nested function that captures a variable. -/
theorem compile_verified_or_limit_capture :
    ∃ body u, Parser.parse "local x = y return function() return x end" = .ok body ∧
      emitChunk "test" body = .ok u ∧ u.walk.length = 2 ∧ ∀ v ∈ u.walk, Verifier.verify v = .ok () := by
  have ran : ((Parser.parse "local x = y return function() return x end").toOption.any fun body =>
      (emitChunk "test" body).toOption.any fun u => decide (u.walk.length = 2)) = true := by decide +kernel
  obtain ⟨body, parsed, ran⟩ := exists_of_any ran
  obtain ⟨u, emitted, two⟩ := exists_of_any ran
  exact ⟨body, u, parsed, emitted, of_decide_eq_true two,
    ((compile_verified_or_limit _ "test" body parsed).1 u emitted).2⟩

end ScriptEngine.Compiler
