import ScriptEngine.Proofs.Compiler.Charted
import ScriptEngine.Proofs.Machine.Rounds

/-!
# How often a numeric loop runs its body

The statement of a numeric loop is compiled to code whose parts are where `ForCode` says. In a machine that comes to
that code, the body runs as often as `trips` says (`Machine.Reachable.numericFor_counts`).
-/

set_option linter.dupNamespace false

namespace ScriptEngine

open Compiler Number

namespace Compiler

variable {s t : State} {k : Nat}

theorem Lays.recorded {α : Type} {c : Compiler α} {Q : α → State → Whole → Prop} (h : Lays k c s Q) :
    Lays k c s fun a t F => c.run s = .ok (a, t) ∧ Q a t F := by
  intro sound low
  have leads := h sound low
  unfold Leads at leads ⊢
  split at leads
  · rename_i result
    exact ⟨leads.1, fun F within => ⟨result, leads.2 F within⟩⟩
  · trivial

/-- The slots that are released without any closed cells are released by one instruction. -/
theorem Closing.ip {outer : Scope} {F : Whole} (h : Closing outer F s t) (some' : 1 ≤ k)
    (depth : s.depth = outer.depth + k) (closed : s.closed = outer.closed) : t.ip = s.ip + 1 := by
  obtain ⟨q, r, ⟨release, drop⟩, rfl⟩ := h
  obtain ⟨more, -⟩ | ⟨-, rfl⟩ := release
  case inl => omega
  obtain ⟨-, puts⟩ | ⟨none', -⟩ := drop
  case inr => omega
  exact puts.ip

/-- Where the code of a numeric loop is: behind that of the control values at `prep`, with the code of the body from
`enter` to `leave`, and so far as to `t`. -/
structure ForCode (u : CodeUnit) (var : String) (body : Block) (prep enter leave t : State) : Prop where
  prepares : u.Holds prep.ip .forPrep 0 0
  jumps : u.Holds (prep.ip + 17) .jmpTrue (leave.ip + 7) 0
  enters : enter.ip = prep.ip + 20
  declares : enter.locals = ⟨var, prep.depth, prep.closed⟩ :: prep.locals
  compiles : ∃ exit, (compileStatements (some exit) body).run enter = .ok ((), leave)
  ends : t.ip = leave.ip + 8

theorem forLoop_code (var : String) (body : Block) (around : Scope) :
    Lays s.builder.labels.size (do
      emit .forPrep 0 0
      let control ← scope
      let top ← newLabel
      let exit ← newLabel
      placeLabel top
      forHead var (control.depth - 3) (control.depth - 2) (control.depth - 1) exit
      compileStatements (some ⟨exit, control⟩) body
      forTail control (control.depth - 3) (control.depth - 1) top
      placeLabel exit
      closeScope around) s fun _ t F =>
        around.locals = s.locals → around.depth + 3 = s.depth → around.closed = s.closed →
          ∃ enter leave, ForCode F.unit var body s enter leave t := by
  refine (emit_lays .forPrep 0 0).seq fun _ s₂ g₂ => Lays.read (Lays.label (Lays.label ?_))
  have size : s₂.labelled.builder.labels.size = s₂.builder.labels.size + 1 := size_labelled s₂
  have low := g₂.labels
  refine Lays.place low (awaits_labelled s₂).labelled ?_
  have exit := (awaits_labelled s₂.labelled).placed (j := s₂.builder.labels.size) (by omega)
  have same : (s₂.labelled.labelled.placed s₂.builder.labels.size).scope = s₂.scope ∧
      (s₂.labelled.labelled.placed s₂.builder.labels.size).ip = s₂.ip := by simp
  generalize s₂.labelled.labelled.placed s₂.builder.labels.size = p at exit same ⊢
  obtain ⟨scope, ip⟩ := same
  have control : Scope.mk s₂.locals s₂.depth s₂.closed = p.scope := scope.symm
  rw [control]
  refine (forHead_lays var _).seq fun _ q g₃ => (compileStatements_settles _ body q).recorded.seq fun _ r g₄ =>
    (forTail_lays _ _).seq fun _ s₅ g₅ => Lays.place (by omega) (((exit.grown g₃).grown g₄).grown g₅) ?_
  refine (closeScope_lays _).mono fun _ t F => ?_
  rintro closing leaves again ⟨run, spans⟩ begins - puts locals depth closed
  have prepared : Trades 3 3 s s₂ := puts.trades rfl rfl
  have scopeP : p.scope = s.scope := scope.trans prepared.scope
  have depthP : p.depth = s.depth := congrArg Scope.depth scopeP
  have closedP : p.closed = s.closed := congrArg Scope.closed scopeP
  have localsP : p.locals = s.locals := congrArg Scope.locals scopeP
  have ipP : p.ip = s.ip + 1 := ip.trans puts.ip
  have depth' : p.scope.depth = p.depth := rfl
  have begins := begins (by omega) (by omega) (by omega)
  obtain ⟨address, places, jumps, -⟩ := begins.leave
  obtain rfl : address = s₅.ip := places.unique leaves
  have body := spans [(s₅.ip, p.scope)] (.own leaves begins.around List.mem_cons_self)
  obtain ⟨slots, cells, slot, cell, depthR, closedR⟩ := begins.deeper body.around
  have again := again slots cells slot cell depthR closedR (begins.around.trans body.around) (by omega) (by omega)
  have depthT : s₅.depth = p.depth := congrArg Scope.depth again.scope
  have closedT : s₅.closed = p.closed := congrArg Scope.closed again.scope
  have ends := closing.ip (k := 3) (by omega) (by show s₅.depth = _; omega) (by show s₅.closed = _; omega)
  have ip₅ := again.ip
  have enters := begins.ip
  refine ⟨q, r, puts.holds, ?_, by omega, ?_, ⟨_, run⟩, ?_⟩
  · rw [← ip₅, show s.ip + 17 = p.ip + 16 by omega]
    exact jumps
  · rw [begins.locals, depthP, closedP, localsP]
  · rw [ends]
    show s₅.ip + 1 = _
    omega

/-- The code of the control values of a numeric loop. -/
def controlCode (start limit : Expr) (step : Option Expr) : Compiler Unit := do
  compileExpr start (.fixed 1)
  compileExpr limit (.fixed 1)
  match step with
  | some e => compileExpr e (.fixed 1)
  | none => loadConstant (.number 1.0)

theorem numericForCode_lays (var : String) (body : Block) {start limit step : Compiler Unit}
    {A L I : List String → Namings} (hstart : Works 0 start 1 A) (hlimit : Works 1 limit 2 L)
    (hstep : Works 2 step 3 I) :
    Lays s.builder.labels.size (numericForCode var start limit step (compileStatements · body)) s fun _ t F =>
      ∃ prep enter leave, (do start; limit; step : Compiler Unit).run s = .ok ((), prep) ∧
        prep.depth = s.depth + 3 ∧ prep.closed = s.closed ∧ ForCode F.unit var body prep enter leave t := by
  rw [numericForCode_eq]
  refine Lays.read ((hstart _).recorded.seq fun _ s₁ _ => (hlimit _).recorded.seq fun _ s₂ _ =>
    (hstep _).recorded.seq fun _ s₃ _ => (forLoop_code var body _).mono fun _ t F code => ?_)
  rintro ⟨run₃, links₃⟩ ⟨run₂, links₂⟩ ⟨run₁, links₁⟩
  have trades := ((links₁.trans links₂).trans links₃).trades
  obtain ⟨enter, leave, code⟩ := code trades.locals.symm trades.depth.symm trades.closed.symm
  refine ⟨s₃, enter, leave, ?_, trades.depth, trades.closed, code⟩
  simp only [StateT.run, Bind.bind, StateT.bind, Except.bind] at run₁ run₂ run₃ ⊢
  simp only [run₁, run₂, run₃]

/-- The statement is compiled from `s` to `t` as a part of the unit. -/
structure Part (u : CodeUnit) (exit : Option LoopExit) (stmt : Stmt) (s t : State) : Prop where
  sound : s.Sound
  compiled : (compileStmt exit stmt).run s = .ok ((), t)
  whole : ∃ F : Whole, t.builder.Precedes 0 F.builder ∧ F.unit = u

theorem Part.numericFor {u : CodeUnit} {exit : Option LoopExit} {var : String} {start limit : Expr}
    {step : Option Expr} {body : Block} {line : Nat}
    (part : Part u exit (.numericFor var start limit step body line) s t) :
    ∃ prep enter leave, (controlCode start limit step).run { s with line } = .ok ((), prep) ∧
      prep.depth = s.depth + 3 ∧ prep.closed = s.closed ∧ ForCode u var body prep enter leave t := by
  obtain ⟨sound, compiled, F, within, rfl⟩ := part
  have lays : Lays 0 (compileStmt exit (.numericFor var start limit step body line)) s fun _ t F =>
      ∃ prep enter leave, (controlCode start limit step).run { s with line } = .ok ((), prep) ∧
        prep.depth = s.depth + 3 ∧ prep.closed = s.closed ∧ ForCode F.unit var body prep enter leave t := by
    have start' := compileExpr_works start (.fixed 1) 0
    have limit' := compileExpr_works limit (.fixed 1) 1
    cases step with
    | none =>
      rw [compileStmt]
      exact Lays.line ((numericForCode_lays var body start' limit' (loadConstant_works 2 _)).mono fun _ _ _ => id)
    | some e =>
      rw [compileStmt]
      have step' := compileExpr_works e (.fixed 1) 2
      exact Lays.line ((numericForCode_lays var body start' limit' step').mono fun _ _ _ => id)
  exact ((lays sound (Nat.zero_le _)).ok compiled).2 F within

theorem Lays.within {α : Type} {c : Compiler α} {Q : α → State → Whole → Prop} (h : Lays k c s Q) :
    Lays k c s fun a t F => t.builder.Precedes 0 F.builder ∧ Q a t F := fun sound low =>
  (h sound low).mono fun _ _ ⟨grown, holds⟩ => ⟨grown, fun F within => ⟨within, holds F within⟩⟩

/-- The first statement of a chunk. -/
theorem Part.first {source : String} {stmt : Stmt} {rest : List Stmt} {line : Nat} {u : CodeUnit}
    (emitted : emitChunk source ⟨stmt :: rest, none, line⟩ = .ok u) : ∃ t, Part u none stmt (.root source) t := by
  have sound : (State.root source).Sound := ⟨by simp [State.root], by simp [State.root], by simp [State.root]⟩
  have lays : Lays 0 (do compileStatements none ⟨stmt :: rest, none, line⟩; emit .ret 0 0) (.root source)
      fun _ _ F => ∃ t, (compileStmt none stmt).run (.root source) = .ok ((), t) ∧ t.builder.Precedes 0 F.builder := by
    rw [compileStatements, compileStmts]
    simp only [bind_assoc, pure_bind]
    refine (compileStmt_settles none stmt _).recorded.within.seq fun _ t _ =>
      (compileStmts_settles none rest t).seq fun _ r _ => (emit_lays .ret 0 0).mono fun _ _ F _ _ first => ?_
    exact ⟨t, first.2.1, first.1⟩
  unfold emitChunk at emitted
  cases ran : StateT.run (do compileStatements none ⟨stmt :: rest, none, line⟩; emit .ret 0 0 : Compiler Unit)
      (.root source) with
  | error e =>
    simp only [ran] at emitted
    cases emitted
  | ok r =>
    obtain ⟨⟨⟩, last⟩ := r
    simp only [ran] at emitted
    obtain ⟨grown, parts⟩ := (lays sound (Nat.zero_le _)).ok ran
    obtain ⟨F, builder, rfl⟩ := whole_of_finish emitted grown.sound.places
    obtain ⟨t, compiled, within⟩ := parts F (builder ▸ .refl 0 _)
    exact ⟨t, sound, compiled, F, within, rfl⟩

end Compiler

namespace Machine

variable {m : Machine} {f : Frame} {rest : List Frame} {last slots cells : Nat} {enclosing : List (String × Nat)}
  {C : Chart}

/-- A constant that is loaded calls nothing. -/
theorem Reachable.loads {A : Activation} {m₀ : Machine} {d c ip i : Nat} {vs : List Value} {v : Value}
    (reach : m.Reachable Doubles) (discreet : ∀ g ∈ m.hosts, g.Discreet) (stage : A.Stage m₀ d c m ip vs)
    (holds : A.frame.closure.unit.Holds ip .loadK i 0) (found : A.frame.closure.unit.constants[i]? = some v) :
    ∃ m' : Machine, m'.Reachable Doubles ∧ (∀ g ∈ m'.hosts, g.Discreet) ∧ A.Stage m₀ d c m' (ip + 1) (vs ++ [v]) := by
  obtain ⟨m', crosses, next⟩ := stage.loadK holds found
  have poises := stage.poises holds
  have stepped : Exec.step m = .ok none (m.advance.push v) := by
    rw [poises.performs (by simp)]
    simp only [Exec.perform, Exec.constant, Activation.closure_at', found, Exec.bind_apply, Exec.pure_apply,
      Exec.push_apply]
  have there : A.At (m.advance.push v) (ip + 1) := by
    refine ⟨stage.there.running, ?_⟩
    rw [push_eq_pushResults, current_pushResults stage.advance_inside, poises.thread]
    rfl
  have silent : ¬m.Doubles := by
    rintro ⟨callee, args, want, rest, asked, -⟩
    simp [nextCall?, poises.instruction, request?, Opcode.arithmetic?] at asked
  have reach' := reach.step silent stepped
  have discreet' : ∀ g ∈ (m.advance.push v).hosts, g.Discreet := by
    rw [stage.ordered.hosts_moves (.step stepped)]
    exact discreet
  cases crosses with
  | here there' =>
    have := stage.there.unique there'
    omega
  | move _ _ _ moves rest =>
    obtain rfl := moves.unique (.step stepped)
    cases rest with
    | here => exact ⟨_, reach', discreet', next⟩
    | move _ away => exact absurd there away

end Machine

end ScriptEngine
