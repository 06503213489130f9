import Mathlib
import ScriptEngine.Compiler

/-!
# Outcomes of compiler actions

`Leads E c s Q` says how action `c` ends when it starts in state `s`: with a value and a state that
satisfy `Q`, or with an error that satisfies `E`. The rules below take an action apart along its
binds; everything that is proved about emitted code is proved through them.
-/

namespace ScriptEngine.Compiler

/-- `c` started in `s` ends with `Q`, or fails with an error for which `E` holds. -/
def Leads {α : Type} (E : CompileError → Prop) (c : Compiler α) (s : State)
    (Q : α → State → Prop) : Prop :=
  match c s with
  | .ok (a, t) => Q a t
  | .error e => E e

namespace Leads

variable {α β : Type} {E : CompileError → Prop} {s : State}

theorem bind {c : Compiler α} {f : α → Compiler β} {Q : β → State → Prop}
    (h : Leads E c s fun a t => Leads E (f a) t Q) : Leads E (c >>= f) s Q := by
  unfold Leads at h ⊢
  simp only [Bind.bind, StateT.bind, Except.bind]
  cases run : c s with
  | error e => simpa [run] using h
  | ok r =>
    rw [run] at h
    exact h

/-- The rule for one action after another, with what holds in between. -/
theorem seq {c : Compiler α} {f : α → Compiler β} {P : α → State → Prop} {Q : β → State → Prop}
    (h : Leads E c s P) (next : ∀ a t, P a t → Leads E (f a) t Q) : Leads E (c >>= f) s Q := by
  apply bind
  unfold Leads at h ⊢
  split at h
  · exact next _ _ h
  · exact h

theorem mono {c : Compiler α} {P Q : α → State → Prop} (h : Leads E c s P)
    (weaken : ∀ a t, P a t → Q a t) : Leads E c s Q := by
  unfold Leads at h ⊢
  split at h
  · exact weaken _ _ h
  · exact h

theorem ok {c : Compiler α} {Q : α → State → Prop} {a : α} {t : State} (h : Leads E c s Q)
    (ran : c.run s = .ok (a, t)) : Q a t := by
  unfold Leads at h
  rw [show c s = _ from ran] at h
  exact h

theorem error {c : Compiler α} {Q : α → State → Prop} {e : CompileError} (h : Leads E c s Q)
    (ran : c.run s = .error e) : E e := by
  unfold Leads at h
  rw [show c s = _ from ran] at h
  exact h

theorem pure {a : α} {Q : α → State → Prop} (h : Q a s) : Leads E (Pure.pure a : Compiler α) s Q := h

theorem get {Q : State → State → Prop} (h : Q s s) : Leads E (MonadState.get : Compiler State) s Q := h

theorem set {t : State} {Q : PUnit → State → Prop} (h : Q ⟨⟩ t) :
    Leads E (MonadStateOf.set t : Compiler PUnit) s Q := h

theorem modify {f : State → State} {Q : PUnit → State → Prop} (h : Q ⟨⟩ (f s)) :
    Leads E (modify f : Compiler PUnit) s Q := h

theorem throw {e : CompileError} {Q : α → State → Prop} (h : E e) :
    Leads E (MonadExcept.throw e : Compiler α) s Q := h

/-- An action that needs no state: it fails as it is, or leaves the state alone. -/
theorem lift {r : Except CompileError α} {Q : α → State → Prop}
    (ok : ∀ a, r = .ok a → Q a s) (error : ∀ e, r = .error e → E e) :
    Leads E (liftM r : Compiler α) s Q := by
  cases r with
  | ok a => exact ok a rfl
  | error e => exact error e rfl

theorem ite {p : Prop} [Decidable p] {c d : Compiler α} {Q : α → State → Prop}
    (yes : p → Leads E c s Q) (no : ¬p → Leads E d s Q) : Leads E (if p then c else d) s Q := by
  split
  · exact yes ‹_›
  · exact no ‹_›

end Leads

end ScriptEngine.Compiler
