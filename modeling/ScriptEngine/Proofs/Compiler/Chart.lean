import ScriptEngine.Proofs.Compiler.Growth
import ScriptEngine.Proofs.Compiler.Naming
import ScriptEngine.Proofs.Machine.Instruction

/-!
# Charts of compiled code

While it emits code, the compiler knows what is live at every instruction. A `Chart` keeps this for the
addresses of a unit, together with the slots that the code there may not touch, the control slots of the
numeric loops around it, and with what the instruction does about names. `Fits` is what an instruction has
to do with its entry and with those of its successors; `Charted` says that all instructions of a unit, and of
the units nested in it, fit, and that the names are those of the program, in the order of the code. `Charts`
is the same for a part of the code, and can be put together from smaller parts.
-/

set_option linter.dupNamespace false

namespace ScriptEngine

namespace Compiler

/-- The local is live: its slot is on the stack and its cell in the closure list. -/
def Scope.Live (σ : Scope) (l : Local) : Prop :=
  l ∈ σ.locals ∧ l.slot < σ.depth ∧ l.closurePos < σ.closed

/-- `τ` is `σ`, perhaps with fewer locals; those whose slots are on the stack are still there. -/
structure Scope.Narrows (τ σ : Scope) : Prop where
  depth : τ.depth = σ.depth
  closed : τ.closed = σ.closed
  live : ∀ l, τ.Live l → σ.Live l
  kept : ∀ l ∈ σ.locals, l.slot < σ.depth → l ∈ τ.locals

/-- The instruction takes control from `σ` to `τ`: a local that is live in `τ` was so in `σ`, in a slot
that the instruction does not touch, or the instruction has just closed over it; and a local stays as long
as its slot. -/
structure Scope.Passes (σ : Scope) (op : Opcode) (a b : Nat) (τ : Scope) : Prop where
  depth : (τ.depth : Int) = σ.depth + Instruction.stackEffect op a b
  closed : (τ.closed : Int) = σ.closed + Instruction.closedEffect op a
  live : ∀ l, τ.Live l → σ.Live l ∧ l.slot + op.touched a b < σ.depth ∨
    op = .closeVars ∧ σ.depth ≤ l.slot + a ∧ l.closurePos + σ.depth = l.slot + a + σ.closed
  kept : ∀ l ∈ σ.locals, l.slot < τ.depth → l ∈ τ.locals
  /-- The slots that are closed over were no local's, and now each is that of a local. -/
  binds : op = .closeVars → (∀ l ∈ σ.locals, l.slot + a < σ.depth) ∧
    ∀ i, σ.depth ≤ i + a → i < σ.depth → ∃ l ∈ τ.locals, l.slot = i

/-- Where a name leads if `locals` are in scope. -/
def resolveIn (locals : List Local) (enclosing : List (String × Nat)) (name : String) : Var :=
  match locals.find? (·.name == name) with
  | some l => .slot l.slot
  | none =>
    match enclosing.find? (·.1 == name) with
    | some (_, pos) => .upvalue pos
    | none => .global

/-- The names that a nested function sees, the innermost first. -/
def Scope.names (σ : Scope) (enclosing : List (String × Nat)) : List (String × Nat) :=
  σ.locals.map (fun l => (l.name, l.closurePos)) ++ enclosing

/-- The names that are visible, the innermost first. -/
def Scope.visible (σ : Scope) (enclosing : List (String × Nat)) : List String :=
  σ.locals.map Local.name ++ enclosing.map Prod.fst

end Compiler

namespace Opcode

/-- Whether an instruction works on temporaries only, and control goes on after it. -/
def isMild : Opcode → Bool
  | loadK | getStack | add | sub | neg | mul | div | pow | concat
  | mod | len | eq | not | and | or | lessEq | less | newTable | putTable | getTable | call
  | popVarArgs => true
  | _ => false

end Opcode

open Compiler

/-- What is live in front of an instruction, the slots that it must leave alone, and what it does about names. -/
structure Site where
  scope : Scope
  hidden : List Nat
  naming : Option Naming

abbrev Chart := Nat → Site

/-- What is done about names at these places, with the names that are visible there. -/
def namings (enclosing : List (String × Nat)) (notes : List Site) : Namings :=
  notes.filterMap fun x => x.naming.map (·, x.scope.visible enclosing)

theorem namings_append (enclosing : List (String × Nat)) (notes notes' : List Site) :
    namings enclosing (notes ++ notes') = namings enclosing notes ++ namings enclosing notes' :=
  List.filterMap_append

/-- The later locals have the greater slots and closure positions. -/
def Ascending (locals : List Local) : Prop :=
  locals.Pairwise fun l l' => l'.slot < l.slot ∧ l'.closurePos < l.closurePos

namespace CodeUnit

theorem Holds.eq {u : CodeUnit} {ip : Nat} {op op' : Opcode} {a b a' b' : Nat}
    (h : u.Holds ip op a b) (h' : u.Holds ip op' a' b') : op = op' ∧ a = a' ∧ b = b' := by
  obtain ⟨ins, found, opcode, rfl, rfl⟩ := h
  obtain ⟨ins', found', opcode', rfl, rfl⟩ := h'
  rw [found] at found'
  cases found'
  rw [opcode] at opcode'
  cases opcode'
  exact ⟨rfl, rfl, rfl⟩

variable (u : CodeUnit)

/-- The instruction pushes a constant that equals zero. -/
def PushesZero (ip : Nat) : Prop :=
  ∃ i v, u.Holds ip .loadK i 0 ∧ u.constants[i]? = some v ∧ (v == .number 0.0 ∨ v = .number 0.0)

/-- The guard of a numeric loop: whether the variable is within the limit in the direction of the step. -/
structure Guard (ip : Nat) : Prop where
  zero : u.PushesZero ip
  step : u.Holds (ip + 1) .getStack 2 0
  up : u.Holds (ip + 2) .less 0 0
  current : u.Holds (ip + 3) .getStack 4 0
  limit : u.Holds (ip + 4) .getStack 4 0
  below : u.Holds (ip + 5) .lessEq 0 0
  rising : u.Holds (ip + 6) .and 0 0
  step' : u.Holds (ip + 7) .getStack 2 0
  zero' : u.PushesZero (ip + 8)
  down : u.Holds (ip + 9) .less 0 0
  limit' : u.Holds (ip + 10) .getStack 4 0
  current' : u.Holds (ip + 11) .getStack 6 0
  above : u.Holds (ip + 12) .lessEq 0 0
  falling : u.Holds (ip + 13) .and 0 0
  either : u.Holds (ip + 14) .or 0 0

/-- The numeric loop whose `forPrep` is at `f`. Its body is the code from `f + 20` to `last`, at whose end
there are so many slots and closed cells of its own, those of the loop's variable among them. -/
structure NumericLoop (C : Chart) (f last slots cells : Nat) : Prop where
  guard : u.Guard (f + 1)
  ends : u.Holds (f + 16) .not 0 0
  leave : u.Holds (f + 17) .jmpTrue (last + 7) 0
  read : u.Holds (f + 18) .getStack 3 0
  bind : u.Holds (f + 19) .closeVars 1 0
  body : f + 20 ≤ last
  release : u.Holds last .popClosed cells 0
  drop : u.Holds (last + 1) .popStack slots 0
  current : u.Holds (last + 2) .getStack 3 0
  step : u.Holds (last + 3) .getStack 2 0
  add : u.Holds (last + 4) .add 0 0
  write : u.Holds (last + 5) .putStack 4 0
  again : u.Holds (last + 6) .jmp (f + 1) 0
  done : u.Holds (last + 7) .popStack 3 0
  control : 3 ≤ (C f).scope.depth
  slot : 1 ≤ slots
  cell : 1 ≤ cells
  depth : (C last).scope.depth = (C f).scope.depth + slots
  closed : (C last).scope.closed = (C f).scope.closed + cells
  /-- The control slots are no local's. -/
  temporaries : ∀ l ∈ (C f).scope.locals, l.slot + 3 < (C f).scope.depth
  /-- In the body the stack stays above the control slots, but for jumps out of it. -/
  deep : ∀ ip, f + 20 ≤ ip → ip < last →
    (C f).scope.depth < (C ip).scope.depth ∨ ∃ a b, u.Holds ip .jmp a b
  hides : ∀ ip, f + 20 ≤ ip → ip < last → ∀ i, 1 ≤ i → i ≤ 3 → (C f).scope.depth - i ∈ (C ip).hidden

end CodeUnit

/-- From `σ` to `τ` that has been done about names: declared names have come to be those of the topmost slots. -/
def Compiler.Scope.Declared (σ τ : Scope) : Option Naming → Prop
  | some (.declare names) => ∀ l, τ.Live l ↔ l ∈ bind names (σ.depth - names.length) σ.closed σ.locals
  | _ => True

/-- The instruction does that about names: it accesses a variable where its name leads, closes over as many slots
as there are names, makes a closure, or has nothing to do with names. -/
def CodeUnit.Names (u : CodeUnit) (enclosing : List (String × Nat)) (σ : Scope) (op : Opcode) (a : Nat) :
    Option Naming → Prop
  | some (.access name) =>
    match resolveIn σ.locals enclosing name with
    | .slot slot => (op = .getStack ∨ op = .putStack) ∧ slot + a = σ.depth
    | .upvalue pos => (op = .getUpval ∨ op = .putUpval) ∧ a = pos
    | .global => (op = .getGlobal ∨ op = .putGlobal) ∧ u.constants[a]? = some (.string name)
  | some (.declare names) => op = .closeVars ∧ a = names.length
  | some (.nested _) => op = .closure
  | none => op ≠ .getUpval ∧ op ≠ .putUpval ∧ op ≠ .getGlobal ∧ op ≠ .putGlobal ∧ op ≠ .closeVars ∧ op ≠ .closure

attribute [grind =] CodeUnit.Names

/-- The instruction at `ip` keeps to the chart. -/
structure Fits (u : CodeUnit) (enclosing : List (String × Nat)) (C : Chart) (ip : Nat) (op : Opcode)
    (a b : Nat) : Prop where
  ascending : Ascending (C ip).scope.locals
  passes : ∀ q ∈ Verifier.successors op a ip, (C ip).scope.Passes op a b (C q).scope
  room : op ≠ .popStack → ∀ h ∈ (C ip).hidden, h < (C ip).scope.depth →
    h + op.touched a b < (C ip).scope.depth
  avoids : op = .putStack → ∀ h ∈ (C ip).hidden, h + a ≠ (C ip).scope.depth
  names : u.Names enclosing (C ip).scope op a (C ip).naming
  live : (C ip).naming.isSome = true → ∀ l ∈ (C ip).scope.locals, (C ip).scope.Live l
  declared : (C ip).scope.Declared (C (ip + 1)).scope (C ip).naming
  loop : op = .forPrep → ∃ last slots cells, u.NumericLoop C ip last slots cells

/-- The chart is one of the unit, whose closures have so many upvalues: it starts with no live local, and all
instructions keep to it. -/
structure Chart.Suits (C : Chart) (enclosing : List (String × Nat)) (upvalues : Nat) (u : CodeUnit) : Prop where
  start : (C 0).scope.Narrows ⟨[], 1, upvalues⟩
  fits : ∀ ip op a b, u.Holds ip op a b → Fits u enclosing C ip op a b

/-- What the whole unit does about names according to the chart. -/
def Chart.namings (C : Chart) (enclosing : List (String × Nat)) (u : CodeUnit) : Namings :=
  ScriptEngine.namings enclosing ((List.range u.code.size).map C)

/-- The unit has a chart in which it does that about names, and so have the units nested in it, which see the
names of the place where they are closed over. -/
inductive Charted : List (String × Nat) → Nat → CodeUnit → Namings → Prop where
  | intro {enclosing : List (String × Nat)} {upvalues : Nat} {u : CodeUnit} (C : Chart)
      (suits : C.Suits enclosing upvalues u)
      (nested : ∀ ip a b c f, u.Holds ip .closure a b → u.child? a = some c → (C ip).naming = some (.nested f) →
        Charted ((C ip).scope.names enclosing) (C ip).scope.closed c (f.namings ((C ip).scope.visible enclosing))) :
      Charted enclosing upvalues u (C.namings enclosing u)

namespace Compiler

namespace Scope

variable {σ τ ρ : Scope} {op : Opcode} {a b : Nat}

theorem Narrows.refl (σ : Scope) : σ.Narrows σ := ⟨rfl, rfl, fun _ h => h, fun _ mem _ => mem⟩

theorem Narrows.trans (first : ρ.Narrows τ) (second : τ.Narrows σ) : ρ.Narrows σ :=
  ⟨first.depth.trans second.depth, first.closed.trans second.closed,
    fun l h => second.live l (first.live l h),
    fun l mem inside => first.kept l (second.kept l mem inside) (second.depth ▸ inside)⟩

/-- Locals that are in scope at `σ` too, those among them whose slots are on the stack. -/
theorem Narrows.of_locals {locals : List Local} (old : ∀ l ∈ locals, l ∈ σ.locals)
    (kept : ∀ l ∈ σ.locals, l.slot < σ.depth → l ∈ locals) : Narrows ⟨locals, σ.depth, σ.closed⟩ σ :=
  ⟨rfl, rfl, fun _ h => ⟨old _ h.1, h.2⟩, kept⟩

theorem Passes.narrows (h : σ.Passes op a b τ) (narrows : ρ.Narrows τ) : σ.Passes op a b ρ := by
  refine ⟨by rw [narrows.depth]; exact h.depth, by rw [narrows.closed]; exact h.closed,
    fun l live => h.live l (narrows.live l live), fun l mem inside => ?_, fun closes => ?_⟩
  · rw [narrows.depth] at inside
    exact narrows.kept l (h.kept l mem inside) inside
  · obtain ⟨old, new⟩ := h.binds closes
    refine ⟨old, fun i low high => ?_⟩
    obtain ⟨l, mem, rfl⟩ := new i low high
    have depth := h.depth
    rw [closes] at depth
    exact ⟨l, narrows.kept l mem (by simp only [Instruction.stackEffect] at depth; omega), rfl⟩

/-- The live locals of a narrower scope are the same. -/
theorem Narrows.live_iff (h : τ.Narrows σ) (l : Local) : τ.Live l ↔ σ.Live l := by
  refine ⟨h.live l, fun live => ⟨h.kept l live.1 live.2.1, ?_, ?_⟩⟩
  · rw [h.depth]
    exact live.2.1
  · rw [h.closed]
    exact live.2.2

theorem Declared.narrows {naming : Option Naming} (h : σ.Declared τ naming) (narrows : ρ.Narrows τ) :
    σ.Declared ρ naming := by
  match naming, h with
  | some (.declare names), h => exact fun l => (narrows.live_iff l).trans (h l)
  | some (.access _), _ => trivial
  | some (.nested _), _ => trivial
  | none, _ => trivial

end Scope

/-- What the code of a region has to keep to: it never lets the stack go below `floor`, and leaves the
slots in `hidden` alone, which lie below. -/
structure Ground where
  floor : Nat
  hidden : List Nat
  below : ∀ h ∈ hidden, h < floor

/-- With `n` temporaries on top, all locals of the scope are live below them, and so is the ground. -/
structure Ground.Bears (g : Ground) (n : Nat) (σ : Scope) : Prop where
  floor : g.floor + n ≤ σ.depth
  slots : ∀ l ∈ σ.locals, l.slot + n < σ.depth
  positions : ∀ l ∈ σ.locals, l.closurePos < σ.closed
  ascending : Ascending σ.locals
  apart : ∀ l ∈ σ.locals, l.slot ∉ g.hidden

namespace Ground.Bears

variable {g : Ground} {n : Nat} {σ τ : Scope}

/-- The same locals under other temporaries. -/
theorem shift (h : g.Bears n σ) {m : Nat} (locals : τ.locals = σ.locals) (closed : τ.closed = σ.closed)
    (depth : τ.depth + n = σ.depth + m) : g.Bears m τ := by
  refine ⟨?_, fun l mem => ?_, fun l mem => ?_, locals ▸ h.ascending, locals ▸ h.apart⟩
  · have := h.floor
    omega
  · have := h.slots l (locals ▸ mem)
    omega
  · have := h.positions l (locals ▸ mem)
    omega

theorem fewer (h : g.Bears n σ) {m : Nat} (le : m ≤ n) : g.Bears m σ :=
  ⟨by have := h.floor; omega, fun l mem => by have := h.slots l mem; omega, h.positions, h.ascending, h.apart⟩

theorem live (h : g.Bears n σ) {l : Local} (mem : l ∈ σ.locals) : σ.Live l :=
  ⟨mem, by have := h.slots l mem; omega, h.positions l mem⟩

end Ground.Bears

/-- The chart has these notes on the addresses from `i` on. -/
def Noted (C : Chart) (i : Nat) (notes : List Site) : Prop :=
  ∀ (n : Nat) x, notes[n]? = some x → C (i + n) = x

theorem Noted.split {C : Chart} {i j : Nat} {notes notes' : List Site} (h : Noted C i (notes ++ notes'))
    (size : j = i + notes.length) : Noted C i notes ∧ Noted C j notes' := by
  refine ⟨fun n x found => h n x ?_, fun n x found => ?_⟩
  · rw [List.getElem?_append_left (List.getElem?_eq_some_iff.1 found).1, found]
  · rw [size, Nat.add_assoc]
    exact h _ x (by rw [List.getElem?_append_right (by omega)]; simpa using found)

theorem Noted.uncons {C : Chart} {i : Nat} {x : Site} {notes : List Site} (h : Noted C i (x :: notes)) :
    C i = x ∧ Noted C (i + 1) notes :=
  ⟨h 0 x rfl, fun n y found => by rw [Nat.add_right_comm]; exact h (n + 1) y found⟩

/-- The notes on the code from `i` to `j`, which takes control from scope `σ` to scope `τ` and does `T` about
names: with them, its instructions fit whatever the rest of the chart is, provided that the addresses in `exits` are entered
with the scopes given there. -/
structure Survey (u : CodeUnit) (enclosing : List (String × Nat)) (g : Ground)
    (exits : List (Nat × Scope)) (i : Nat) (σ : Scope) (j : Nat) (τ : Scope) (T : Namings)
    (notes : List Site) : Prop where
  size : j = i + notes.length
  names : namings enclosing notes = T
  entry : ∀ x, (notes.map Site.scope ++ [τ]).head? = some x → x.Narrows σ
  floor : ∀ (n : Nat) x, notes[n]? = some x → g.floor ≤ x.scope.depth ∨ ∃ a b, u.Holds (i + n) .jmp a b
  hides : ∀ (n : Nat) x, notes[n]? = some x → ∀ h ∈ g.hidden, h ∈ x.hidden
  room : ∀ (n : Nat) x, notes[n]? = some x → ∀ op a b, u.Holds (i + n) op a b → op ≠ .popStack →
    op.touched a b = 0 ∨ g.floor + op.touched a b ≤ x.scope.depth
  targets : ∀ (n : Nat) x, notes[n]? = some x → ∀ op a b, u.Holds (i + n) op a b → op.isJump = true →
    i ≤ a ∧ a ≤ j ∨ ∃ ρ, (a, ρ) ∈ exits
  nested : ∀ (n : Nat) x, notes[n]? = some x → ∀ a b, u.Holds (i + n) .closure a b →
    ∃ c f, u.child? a = some c ∧ x.naming = some (.nested f) ∧
      Charted (x.scope.names enclosing) x.scope.closed c (f.namings (x.scope.visible enclosing))
  sound : ∀ C : Chart, Noted C i notes → (C j).scope.Narrows τ →
    (∀ x ρ, (x, ρ) ∈ exits → (C x).scope.Narrows ρ) →
    ∀ ip op a b, i ≤ ip → ip < j → u.Holds ip op a b → Fits u enclosing C ip op a b

/-- The code from `i` to `j` takes control from scope `σ` to scope `τ`, does `T` about names and can be
charted. -/
def Charts (u : CodeUnit) (enclosing : List (String × Nat)) (g : Ground) (exits : List (Nat × Scope))
    (i : Nat) (σ : Scope) (j : Nat) (τ : Scope) (T : Namings) : Prop :=
  ∃ notes, Survey u enclosing g exits i σ j τ T notes

namespace Survey

variable {u : CodeUnit} {enclosing : List (String × Nat)} {g : Ground} {exits : List (Nat × Scope)}
  {i j k : Nat} {σ τ υ : Scope} {T T' : Namings} {notes notes' : List Site}

/-- What a chart with these notes says at the beginning. -/
theorem enters (h : Survey u enclosing g exits i σ j τ T notes) {C : Chart} (noted : Noted C i notes)
    (last : (C j).scope.Narrows τ) : (C i).scope.Narrows σ := by
  have size := h.size
  cases notes with
  | nil =>
    obtain rfl : j = i := size
    exact last.trans (h.entry τ rfl)
  | cons x rest => exact noted.uncons.1 ▸ h.entry x.scope rfl

theorem append (first : Survey u enclosing g exits i σ j τ T notes)
    (second : Survey u enclosing g exits j τ k υ T' notes') :
    Survey u enclosing g exits i σ k υ (T ++ T') (notes ++ notes') := by
  have size := first.size
  have size' := second.size
  have parts {n : Nat} {x : Site} (found : (notes ++ notes')[n]? = some x) :
      notes[n]? = some x ∨ ∃ n', n = notes.length + n' ∧ notes'[n']? = some x := by
    rw [List.getElem?_append] at found
    split at found
    · exact Or.inl found
    · exact Or.inr ⟨n - notes.length, by omega, found⟩
  have there (n : Nat) : i + (notes.length + n) = j + n := by omega
  refine ⟨by rw [List.length_append]; omega, by rw [namings_append, first.names, second.names], fun x head => ?_,
    fun n x found => ?_, fun n x found => ?_, fun n x found => ?_, fun n x found => ?_, fun n x found => ?_,
    fun C noted last leaves => ?_⟩
  · cases notes with
    | nil => exact (second.entry x head).trans (first.entry τ rfl)
    | cons y rest => exact first.entry x head
  · rcases parts found with found | ⟨n', rfl, found'⟩
    · exact first.floor n x found
    · rw [there]
      exact second.floor n' x found'
  · rcases parts found with found | ⟨n', rfl, found'⟩
    · exact first.hides n x found
    · exact second.hides n' x found'
  · rcases parts found with found | ⟨n', rfl, found'⟩
    · exact first.room n x found
    · rw [there]
      exact second.room n' x found'
  · intro op a b holds jump
    rcases parts found with found | ⟨n', rfl, found'⟩
    · exact (first.targets n x found op a b holds jump).imp_left fun within => by omega
    · rw [there] at holds
      exact (second.targets n' x found' op a b holds jump).imp_left fun within => by omega
  · rcases parts found with found | ⟨n', rfl, found'⟩
    · exact first.nested n x found
    · rw [there]
      exact second.nested n' x found'
  · obtain ⟨before, after⟩ := noted.split size
    intro ip op a b low high holds
    by_cases early : ip < j
    · exact first.sound C before (second.enters after last) leaves ip op a b low early holds
    · exact second.sound C after last leaves ip op a b (Nat.le_of_not_lt early) high holds

/-- An exit that is the beginning or the end of the code itself need not be assumed. -/
theorem discharge (h : Survey u enclosing g exits i σ j τ T notes) {exits' : List (Nat × Scope)}
    (known : ∀ x ρ, (x, ρ) ∈ exits → (x, ρ) ∈ exits' ∨ x = i ∧ σ.Narrows ρ ∨ x = j ∧ τ.Narrows ρ) :
    Survey u enclosing g exits' i σ j τ T notes := by
  have size := h.size
  refine { h with
    targets := fun n x found op a b holds jump => ?_
    sound := fun C noted last leaves => h.sound C noted last fun x ρ mem => ?_ }
  · rcases h.targets n x found op a b holds jump with within | ⟨ρ, mem⟩
    · exact Or.inl within
    · rcases known a ρ mem with mem | ⟨rfl, -⟩ | ⟨rfl, -⟩
      · exact Or.inr ⟨ρ, mem⟩
      · exact Or.inl (by omega)
      · exact Or.inl (by omega)
  · rcases known x ρ mem with mem | ⟨rfl, narrows⟩ | ⟨rfl, narrows⟩
    · exact leaves x ρ mem
    · exact (h.enters noted last).trans narrows
    · exact last.trans narrows

/-- Code that keeps to a region within another keeps to the other. -/
theorem ground (h : Survey u enclosing g exits i σ j τ T notes) {g' : Ground} (floor : g'.floor ≤ g.floor)
    (hidden : ∀ x ∈ g'.hidden, x ∈ g.hidden) : Survey u enclosing g' exits i σ j τ T notes :=
  { h with
    floor := fun n x found => (h.floor n x found).imp_left floor.trans
    hides := fun n x found y mem => h.hides n x found y (hidden y mem)
    room := fun n x found op a b holds other => (h.room n x found op a b holds other).imp_right fun room => by omega }

end Survey

namespace Charts

variable {u : CodeUnit} {enclosing : List (String × Nat)} {g : Ground} {exits : List (Nat × Scope)}
  {i j k : Nat} {σ τ υ : Scope} {T T' : Namings}

/-- No code at all. -/
theorem nothing (narrows : τ.Narrows σ) : Charts u enclosing g exits i σ i τ [] := by
  refine ⟨[], rfl, rfl, fun x head => ?_, nofun, nofun, nofun, nofun, nofun, fun C _ _ _ ip op a b low high => ?_⟩
  · cases head
    exact narrows
  · omega

theorem refl : Charts u enclosing g exits i σ i σ [] := nothing (.refl σ)

theorem trans (first : Charts u enclosing g exits i σ j τ T) (second : Charts u enclosing g exits j τ k υ T') :
    Charts u enclosing g exits i σ k υ (T ++ T') := by
  obtain ⟨notes, first⟩ := first
  obtain ⟨notes', second⟩ := second
  exact ⟨_, first.append second⟩

theorem as (h : Charts u enclosing g exits i σ j τ T) (same : T = T') : Charts u enclosing g exits i σ j τ T' :=
  same ▸ h

/-- Code that does nothing about names comes after other code. -/
theorem quietly (first : Charts u enclosing g exits i σ j τ T) (second : Charts u enclosing g exits j τ k υ []) :
    Charts u enclosing g exits i σ k υ T := (first.trans second).as (List.append_nil T)

/-- Fewer live locals at the end. -/
theorem narrow (h : Charts u enclosing g exits i σ j τ T) (narrows : υ.Narrows τ) :
    Charts u enclosing g exits i σ j υ T := h.quietly (nothing narrows)

theorem discharge (h : Charts u enclosing g exits i σ j τ T) {exits' : List (Nat × Scope)}
    (known : ∀ x ρ, (x, ρ) ∈ exits → (x, ρ) ∈ exits' ∨ x = i ∧ σ.Narrows ρ ∨ x = j ∧ τ.Narrows ρ) :
    Charts u enclosing g exits' i σ j τ T := by
  obtain ⟨notes, h⟩ := h
  exact ⟨notes, h.discharge known⟩

theorem weaken (h : Charts u enclosing g exits i σ j τ T) {exits' : List (Nat × Scope)}
    (kept : ∀ x ∈ exits, x ∈ exits') : Charts u enclosing g exits' i σ j τ T :=
  h.discharge fun x ρ mem => Or.inl (kept (x, ρ) mem)

theorem none (h : Charts u enclosing g [] i σ j τ T) : Charts u enclosing g exits i σ j τ T :=
  h.weaken nofun

end Charts

/-! ## Single instructions -/

/-- What an instruction that is entered with `σ` has to keep to, its successors aside. -/
structure Admits (u : CodeUnit) (enclosing : List (String × Nat)) (g : Ground) (σ : Scope) (op : Opcode)
    (a b : Nat) (naming : Option Naming) : Prop where
  ascending : Ascending σ.locals
  floor : g.floor ≤ σ.depth ∨ op = .jmp
  room : op ≠ .popStack → op.touched a b = 0 ∨ g.floor + op.touched a b ≤ σ.depth
  avoids : op = .putStack → ∀ h ∈ g.hidden, h + a ≠ σ.depth
  names : u.Names enclosing σ op a naming
  live : naming.isSome = true → ∀ l ∈ σ.locals, σ.Live l
  nested : op = .closure → ∃ c f, u.child? a = some c ∧ naming = some (.nested f) ∧
    Charted (σ.names enclosing) σ.closed c (f.namings (σ.visible enclosing))

section

variable {u : CodeUnit} {enclosing : List (String × Nat)} {g : Ground} {exits : List (Nat × Scope)}
  {i : Nat} {σ τ : Scope} {op : Opcode} {a b n : Nat} {naming : Option Naming}

/-- What one instruction does about names. -/
def said (σ : Scope) (enclosing : List (String × Nat)) (naming : Option Naming) : Namings :=
  (naming.map (·, σ.visible enclosing)).toList

/-- An instruction in front of other code. -/
theorem Survey.cons {j : Nat} {υ : Scope} {T : Namings} {notes : List Site} (holds : u.Holds i op a b)
    (admits : Admits u enclosing g σ op a b naming) (rest : Survey u enclosing g exits (i + 1) τ j υ T notes)
    (next : op.continues = true → σ.Passes op a b τ) (declared : σ.Declared τ naming)
    (jump : op.isJump = true → ∃ ρ, (a, ρ) ∈ exits ∧ σ.Passes op a b ρ)
    (loop : op = .forPrep → ∀ C : Chart, (C i).scope = σ → Noted C (i + 1) notes →
      (C j).scope.Narrows υ → ∃ last slots cells, u.NumericLoop C i last slots cells) :
    Survey u enclosing g exits i σ j υ (said σ enclosing naming ++ T) (⟨σ, g.hidden, naming⟩ :: notes) := by
  have size := rest.size
  have after (n : Nat) : i + (n + 1) = i + 1 + n := by omega
  refine ⟨by rw [List.length_cons]; omega, ?_, fun x head => ?_, fun n x found => ?_, fun n x found => ?_,
    fun n x found => ?_, fun n x found => ?_, fun n x found => ?_,
    fun C noted last leaves ip op' a' b' low high holds' => ?_⟩
  · rw [← rest.names]
    cases naming <;> rfl
  · cases head
    exact .refl σ
  · cases n with
    | zero =>
      cases found
      refine admits.floor.imp_right ?_
      rintro rfl
      exact ⟨a, b, holds⟩
    | succ n =>
      rw [after]
      exact rest.floor n x found
  · cases n with
    | zero =>
      cases found
      exact fun h mem => mem
    | succ n => exact rest.hides n x found
  · cases n with
    | zero =>
      cases found
      intro op' a' b' holds' other
      obtain ⟨rfl, rfl, rfl⟩ := holds.eq holds'
      exact admits.room other
    | succ n =>
      rw [after]
      exact rest.room n x found
  · cases n with
    | zero =>
      intro op' a' b' holds' jumps
      obtain ⟨rfl, rfl, rfl⟩ := holds.eq holds'
      obtain ⟨ρ, exit, -⟩ := jump jumps
      exact Or.inr ⟨ρ, exit⟩
    | succ n =>
      intro op' a' b' holds' jumps
      rw [after] at holds'
      exact (rest.targets n x found op' a' b' holds' jumps).imp_left fun within => by omega
  · cases n with
    | zero =>
      cases found
      intro a' b' closes
      obtain ⟨rfl, rfl, rfl⟩ := holds.eq closes
      exact admits.nested rfl
    | succ n =>
      rw [after]
      exact rest.nested n x found
  · obtain ⟨here, others⟩ := noted.uncons
    by_cases later : i + 1 ≤ ip
    · exact rest.sound C others last leaves ip op' a' b' later high holds'
    obtain rfl : ip = i := by omega
    obtain ⟨rfl, rfl, rfl⟩ := holds.eq holds'
    have below := g.below
    refine ⟨?_, fun q mem => ?_, fun other h mem inside => ?_, fun put h mem => ?_, ?_, ?_, ?_,
      fun prep => loop prep C (by rw [here]) others last⟩ <;> rw [here] at *
    · exact admits.ascending
    · rcases Verifier.mem_successors.1 mem with ⟨go, rfl⟩ | ⟨jumps, rfl⟩
      · exact (next go).narrows (rest.enters others last)
      · obtain ⟨ρ, exit, passes⟩ := jump jumps
        exact passes.narrows (leaves _ ρ exit)
    · have := below h mem
      show h + _ < σ.depth
      rcases admits.room other with none' | room
      · rw [none']
        exact inside
      · omega
    · exact admits.avoids put h mem
    · exact admits.names
    · exact admits.live
    · exact declared.narrows (rest.enters others last)

/-- An instruction that leads to the next address with `τ`, and elsewhere as the exits say. -/
theorem Charts.one (holds : u.Holds i op a b) (admits : Admits u enclosing g σ op a b naming)
    (next : op.continues = true → σ.Passes op a b τ) (declared : σ.Declared τ naming)
    (jump : op.isJump = true → ∃ ρ, (a, ρ) ∈ exits ∧ σ.Passes op a b ρ) (other : op ≠ .forPrep) :
    Charts u enclosing g exits i σ (i + 1) τ (said σ enclosing naming) := by
  obtain ⟨notes, none'⟩ : Charts u enclosing g exits (i + 1) τ (i + 1) τ [] := .refl
  refine Charts.as ⟨_, .cons holds admits none' next declared jump fun prep => absurd prep other⟩ ?_
  exact List.append_nil _

/-- The same locals after an instruction that touches temporaries only. -/
theorem Ground.Bears.passes (bears : g.Bears n σ) (touched : op.touched a b ≤ n) (other : op ≠ .closeVars)
    (locals : τ.locals = σ.locals) (depth : (τ.depth : Int) = σ.depth + Instruction.stackEffect op a b)
    (closed : (τ.closed : Int) = σ.closed + Instruction.closedEffect op a) : σ.Passes op a b τ := by
  refine ⟨depth, closed, fun l live => Or.inl ?_, fun l mem _ => locals ▸ mem, fun closes => absurd closes other⟩
  have mem : l ∈ σ.locals := locals ▸ live.1
  have := bears.slots l mem
  exact ⟨bears.live mem, by omega⟩

theorem Ground.Bears.admits (bears : g.Bears n σ) (touched : op.touched a b ≤ n) (mild : op.isMild = true) :
    Admits u enclosing g σ op a b none := by
  have floor := bears.floor
  exact { ascending := bears.ascending
          floor := Or.inl (by omega)
          room := fun _ => Or.inr (by omega)
          avoids := by rintro rfl; cases mild
          names := by refine ⟨?_, ?_, ?_, ?_, ?_, ?_⟩ <;> (rintro rfl; cases mild)
          live := by simp
          nested := by rintro rfl; cases mild }

end

namespace Puts

variable {F : Whole} {s t : State} {op : Opcode} {a b n : Nat} {enclosing : List (String × Nat)}
  {g : Ground} {exits : List (Nat × Scope)} {naming : Option Naming}

theorem charts (puts : Puts F s t op a b) (admits : Admits F.unit enclosing g s.scope op a b naming)
    (next : op.continues = true → s.scope.Passes op a b t.scope) (declared : s.scope.Declared t.scope naming)
    (jump : op.isJump = true → ∃ ρ, (a, ρ) ∈ exits ∧ s.scope.Passes op a b ρ) (other : op ≠ .forPrep) :
    Charts F.unit enclosing g exits s.ip s.scope t.ip t.scope (said s.scope enclosing naming) := by
  rw [puts.ip]
  exact .one puts.holds admits next declared jump other

theorem mild (puts : Puts F s t op a b) (mild : op.isMild = true) (bears : g.Bears n s.scope)
    (touched : op.touched a b ≤ n) : Charts F.unit enclosing g exits s.ip s.scope t.ip t.scope [] := by
  refine puts.charts (bears.admits touched mild)
    (fun _ => bears.passes touched ?_ puts.locals puts.depth puts.closed) trivial (fun jump => ?_) ?_
  · rintro rfl
    cases mild
  · cases op <;> cases mild <;> cases jump
  · rintro rfl
    cases mild

end Puts

end Compiler

end ScriptEngine
