import ScriptEngine.Proofs.Compiler.Chart
import ScriptEngine.Proofs.Machine.Standing

/-!
# The cells of locals

A frame `Minds` a chart of its unit if its view of the closure list begins with the cells that its closure
captured and has, for every local that is live where the frame is, the cell of the local's slot. A thread is
`Minded` if all its frames are, whatever charts their units have. The other slots are `Temporary`. What comes to a
thread is one of a few things: its innermost frame goes past an instruction (`Minded.advance`), something comes on
top of what it has (`Extends`), a call enters a frame (`Thread.entered`), or frames are left (`Minded.leave`,
`Minded.caught`). None of them takes the cell of a local away from it, and none makes a temporary slot of one that
was a local's.
-/

set_option linter.dupNamespace false

namespace ScriptEngine

open Compiler

/-- A chart and the verifier agree on the depths. -/
theorem Chart.Suits.agrees {C : Chart} {names : List (String × Nat)} {upvalues : Nat} {u : CodeUnit}
    (suits : C.Suits names upvalues u) {record : Verifier.Record} {captured : Nat → Nat}
    (recorded : Layout.Recorded upvalues u record captured) {ip : Nat} {d : Depths} (here : record.at? ip = some d) :
    d.depth = (C ip).scope.depth ∧ upvalues + d.closed = (C ip).scope.closed := by
  -- the depths that are recorded and agree with the chart are a consistent assignment by themselves
  let agree (ip : Nat) (d : Depths) : Bool :=
    d.depth == (C ip).scope.depth && upvalues + d.closed == (C ip).scope.closed
  let at? (ip : Nat) : Option Depths := (record.at? ip).filter (agree ip)
  have known (ip : Nat) (d : Depths) : at? ip = some d ↔ record.at? ip = some d ∧
      d.depth = (C ip).scope.depth ∧ upvalues + d.closed = (C ip).scope.closed := by
    simp [at?, agree, Option.filter_eq_some_iff]
  have assigned : Verifier.Assigned u at? := by
    refine @Layout.assigned upvalues u at? captured ((known _ _).2 ⟨recorded.start, ?_, ?_⟩) fun ip d there => ?_
    · rw [suits.start.depth]
      rfl
    · rw [suits.start.closed]
      exact Int.add_zero _
    · obtain ⟨there, depth, closed⟩ := (known _ _).1 there
      obtain ⟨ins, op, code, opcode, legal, next⟩ := recorded.legal ip d there
      have fits := suits.fits ip op ins.a.toNat ins.b.toNat ⟨ins, code, opcode, rfl, rfl⟩
      refine ⟨ins, op, code, opcode, legal, fun q mem => (known _ _).2 ⟨next q mem, ?_, ?_⟩⟩
      · rw [(fits.passes q mem).depth, ← depth]
        rfl
      · rw [(fits.passes q mem).closed, ← closed]
        exact (Int.add_assoc ..).symm
  obtain ⟨record', accepted, within⟩ := Verifier.depths_of_assigned assigned
  cases recorded.depths.symm.trans accepted
  exact ((known ip d).1 (within ip d here)).2

/-- The chart is one of the closure's unit, for as many cells as the closure captured. -/
def Closure.Follows (c : Closure) (C : Chart) : Prop := ∃ names, C.Suits names c.upvalues.size c.unit

/-- Where a frame rests, stack and closure list are as deep as its chart says. -/
theorem Frame.Rests.charted {f : Frame} {stack captures : Nat} (rests : f.Rests stack captures) {C : Chart}
    (follows : f.closure.Follows C) : stack = f.base + (C f.ip).scope.depth ∧
      captures = f.captureBase + (C f.ip).scope.closed := by
  obtain ⟨record, captured, d, recorded, here, depth, closed⟩ := rests
  obtain ⟨names, suits⟩ := follows
  obtain ⟨depth', closed'⟩ := suits.agrees recorded here
  omega

/-- On a stack and a closure list of which `n` and `k` entries belong to the frame and those below it, the frame's
view of the closure list begins with the cells that its closure captured, and the cell of a live local is that of
its slot. -/
structure Frame.Minds (f : Frame) (C : Chart) (stack captures : Array Nat) (n k : Nat) : Prop where
  inherited : ∀ i, i < f.closure.upvalues.size →
    f.captureBase + i < k ∧ captures[f.captureBase + i]? = f.closure.upvalues[i]?
  live : ∀ l, (C f.ip).scope.Live l → f.base + l.slot < n ∧ f.captureBase + l.closurePos < k ∧
    captures[f.captureBase + l.closurePos]? = stack[f.base + l.slot]?

/-- All frames, the innermost first, mind the charts of their units. -/
def Minded (stack captures : Array Nat) : List Frame → Nat → Nat → Prop
  | [], _, _ => True
  | f :: rest, n, k => f.base ≤ n ∧ f.captureBase ≤ k ∧
    (∀ C, f.closure.Follows C → f.Minds C stack captures n k) ∧ Minded stack captures rest f.base f.captureBase

/-- Slot `i` belongs to a frame that has no local there. -/
def Temporary : List Frame → Nat → Nat → Prop
  | [], _, _ => False
  | f :: rest, n, i =>
    f.base ≤ i ∧ i < n ∧ (∃ C, f.closure.Follows C ∧ ∀ l ∈ (C f.ip).scope.locals, f.base + l.slot ≠ i) ∨
      Temporary rest f.base i

/-- The frames are the same but for what their results are for. -/
def Alike (f g : Frame) : Prop :=
  g.closure = f.closure ∧ g.ip = f.ip ∧ g.base = f.base ∧ g.captureBase = f.captureBase

variable {stack stack' captures captures' : Array Nat} {frames rest : List Frame} {f g : Frame}
  {n n' k k' i : Nat}

theorem Alike.refl (f : Frame) : Alike f f := ⟨rfl, rfl, rfl, rfl⟩

namespace Minded

/-- What lies below a frame stays when more comes on top. -/
theorem mono (h : Minded stack captures frames n k) (old : ∀ i, i < n → stack'[i]? = stack[i]?)
    (old' : ∀ i, i < k → captures'[i]? = captures[i]?) (le : n ≤ n') (le' : k ≤ k') :
    Minded stack' captures' frames n' k' := by
  induction frames generalizing n k n' k' with
  | nil => trivial
  | cons f rest ih =>
    obtain ⟨base, captureBase, minds, below⟩ := h
    refine ⟨base.trans le, captureBase.trans le', fun C follows => ?_,
      ih below (fun i low => old i (by omega)) (fun i low => old' i (by omega)) (Nat.le_refl _) (Nat.le_refl _)⟩
    obtain ⟨inherited, live⟩ := minds C follows
    refine ⟨fun i low => ?_, fun l alive => ?_⟩
    · obtain ⟨inside, same⟩ := inherited i low
      exact ⟨by omega, by rw [old' _ inside, same]⟩
    · obtain ⟨slot, position, same⟩ := live l alive
      exact ⟨by omega, by omega, by rw [old' _ position, old _ slot, same]⟩

/-- Every frame minds the charts of its unit, within some limits. -/
theorem of_mem (h : Minded stack captures frames n k) (mem : f ∈ frames) {C : Chart} (follows : f.closure.Follows C) :
    ∃ n k, f.Minds C stack captures n k := by
  induction frames generalizing n k with
  | nil => cases mem
  | cons g rest ih =>
    obtain ⟨-, -, minds, below⟩ := h
    rcases List.mem_cons.1 mem with rfl | mem
    · exact ⟨n, k, minds C follows⟩
    · exact ih below mem

/-- It does not matter what the results of a frame are for. -/
theorem alike (h : Minded stack captures (f :: rest) n k) (same : Alike f g) :
    Minded stack captures (g :: rest) n k := by
  obtain ⟨base, captureBase, minds, below⟩ := h
  obtain ⟨closure, ip, base', captureBase'⟩ := same
  refine ⟨base' ▸ base, captureBase' ▸ captureBase, fun C follows => ?_, by rw [base', captureBase']; exact below⟩
  obtain ⟨inherited, live⟩ := minds C (closure ▸ follows)
  refine ⟨?_, ?_⟩
  · rw [closure, captureBase']
    exact inherited
  · rw [ip, base', captureBase']
    exact live

/-- A frame that has just been entered has no live locals, and its view of the closure list is what its closure
captured. -/
theorem enter (c : Closure) (want protections : Nat) (h : Minded stack captures frames n captures.size)
    (old : ∀ i, i < n → stack'[i]? = stack[i]?) (le : n ≤ n') :
    Minded stack' (captures ++ c.upvalues)
      ({ closure := c, ip := 0, base := n, captureBase := captures.size, want, protections } :: frames) n'
      (captures ++ c.upvalues).size := by
  refine ⟨le, by simp, fun C follows => ⟨fun i low => ?_, fun l alive => ?_⟩,
    h.mono old (fun i low => Array.getElem?_append_left low) (Nat.le_refl _) (Nat.le_refl _)⟩
  · simp only [Array.size_append] at low ⊢
    refine ⟨by omega, ?_⟩
    rw [Array.getElem?_append_right (by omega)]
    congr 1
    omega
  · obtain ⟨names, suits⟩ := follows
    exact absurd (suits.start.live l alive).1 List.not_mem_nil

/-- The frames below a fault's handler are as they were when the protected call was made. -/
theorem caught (h : Minded stack captures frames n k) {want m : Nat} {handler : Handler} {outer : List Handler}
    (pends : Pends frames (handler :: outer) n k want m) :
    Minded stack captures (frames.drop (frames.length - handler.frames)) handler.stack handler.captures := by
  generalize same : handler :: outer = handlers at pends
  induction pends with
  | idle => cases same
  | @call f rest hs hs' stack' captures' want m awaits group below ih =>
    cases hs with
    | nil =>
      obtain ⟨-, -, -, minded⟩ := h
      have there := ih minded same
      have pends := below
      rw [← List.nil_append hs', ← same] at pends
      obtain ⟨g, rest', suffix, length, -⟩ := pends.caught
      have few : handler.frames ≤ rest.length := by
        have := congrArg List.length suffix
        rw [List.length_drop, length] at this
        omega
      rwa [List.length_cons, Nat.succ_sub few, List.drop_succ_cons]
    | cons h' hs =>
      rw [List.cons_append] at same
      obtain ⟨rfl, rfl⟩ := List.cons.inj same
      obtain ⟨noted, noted', noted''⟩ := group.noted handler List.mem_cons_self
      rw [noted, noted', noted'']
      simpa using h

/-- An instruction takes the frame to another address: the locals that are live there have the cells that they had,
or those over which the instruction has just closed. -/
theorem advance {op : Opcode} {a b ip : Nat} (h : Minded stack captures (f :: rest) stack.size captures.size)
    (holds : f.closure.unit.Holds f.ip op a b) (rests : f.Rests stack.size captures.size)
    (next : ip ∈ Verifier.successors op a f.ip) (touched : f.base + op.touched a b ≤ stack.size)
    (old : ∀ i, i + op.touched a b < stack.size → stack'[i]? = stack[i]?)
    (whole : op = .closeVars → stack.size ≤ n ∧ ∀ i, i < stack.size → stack'[i]? = stack[i]?)
    (le : stack.size ≤ n + op.touched a b)
    (closed : ((op.closing a stack captures).size : Int) = captures.size + Instruction.closedEffect op a)
    (room : f.captureBase + f.closure.upvalues.size ≤ (op.closing a stack captures).size) :
    Minded stack' (op.closing a stack captures) ({ f with ip } :: rest) n (op.closing a stack captures).size := by
  obtain ⟨-, -, minds, below⟩ := h
  have list {i : Nat} (low : i < captures.size) (low' : i < (op.closing a stack captures).size) :
      (op.closing a stack captures)[i]? = captures[i]? := by
    cases op with
    | closeVars => exact Array.getElem?_append_left low
    | popClosed =>
      simp only [Opcode.closing, Array.shrink_eq_take, Array.size_extract] at low' ⊢
      rw [Array.getElem?_extract, if_pos (by omega), Nat.zero_add]
    | _ => rfl
  have view := rests.captureBase_le
  refine ⟨by simp only; omega, by simp only; omega, fun C follows => ?_,
    below.mono (fun i low => old i (by omega)) (fun i low => list (by omega) (by omega)) (Nat.le_refl _) (Nat.le_refl _)⟩
  obtain ⟨inherited, live⟩ := minds C follows
  obtain ⟨depth, size⟩ := rests.charted follows
  obtain ⟨names, suits⟩ := follows
  have passes := (suits.fits _ _ _ _ holds).passes ip next
  refine ⟨fun i low => ?_, fun l alive => ?_⟩
  · simp only at low ⊢
    obtain ⟨inside, same⟩ := inherited i low
    exact ⟨by omega, by rw [list inside (by omega), same]⟩
  · have position := alive.2.2
    have now := passes.closed
    have inside : f.captureBase + l.closurePos < (op.closing a stack captures).size := by
      simp only at position
      omega
    rcases passes.live l alive with ⟨before, apart⟩ | ⟨rfl, low, pos⟩
    · obtain ⟨slot, there, same⟩ := live l before
      refine ⟨by simp only; omega, inside, ?_⟩
      simp only
      rw [list there inside, same, old _ (by omega)]
    · -- the local has just been closed over
      obtain ⟨le, whole⟩ := whole rfl
      have slot := alive.2.1
      have now' := passes.depth
      simp only [Opcode.touched, Opcode.operands, Instruction.stackEffect] at slot now' touched
      refine ⟨by simp only; omega, inside, ?_⟩
      simp only
      rw [whole _ (by omega), Opcode.closing, Array.getElem?_append_right (by omega), Array.getElem?_extract,
        if_pos (by omega)]
      congr 1
      omega

end Minded

namespace Temporary

theorem alike (same : Alike f g) (h : Temporary (g :: rest) n i) : Temporary (f :: rest) n i := by
  obtain ⟨closure, ip, base, -⟩ := same
  simp only [Temporary, closure, ip, base] at h
  exact h

/-- A slot that was there already. -/
theorem lower (h : Temporary frames n' i) (low : i < n) : Temporary frames n i := by
  cases frames with
  | nil => exact h
  | cons f rest =>
    rcases h with ⟨base, -, free⟩ | below
    · exact Or.inl ⟨base, low, free⟩
    · exact Or.inr below

/-- A slot below an inner frame's base is none of that frame's. -/
theorem below (h : Temporary (f :: rest) n i) (low : i < f.base) : Temporary rest f.base i := by
  rcases h with ⟨base, -, -⟩ | below
  · omega
  · exact below

/-- A slot of one of the frames is below their limit. -/
theorem lt (h : Temporary frames n i) (minded : Minded stack captures frames n k) : i < n := by
  induction frames generalizing n k with
  | nil => exact h.elim
  | cons f rest ih =>
    obtain ⟨base, -, -, minded⟩ := minded
    rcases h with ⟨-, low, -⟩ | below
    · exact low
    · exact Nat.lt_of_lt_of_le (ih below minded) base

/-- A slot that is temporary below a fault's handler was so all the time. -/
theorem caught {want m : Nat} {handler : Handler} {outer : List Handler}
    (h : Temporary (frames.drop (frames.length - handler.frames)) handler.stack i)
    (pends : Pends frames (handler :: outer) n k want m) : Temporary frames n i := by
  generalize same : handler :: outer = handlers at pends
  induction pends with
  | idle => cases same
  | @call f rest hs hs' stack' captures' want m awaits group below ih =>
    cases hs with
    | nil =>
      have pends := below
      rw [← List.nil_append hs', ← same] at pends
      obtain ⟨g, rest', suffix, length, -⟩ := pends.caught
      have few : handler.frames ≤ rest.length := by
        have := congrArg List.length suffix
        rw [List.length_drop, length] at this
        omega
      rw [List.length_cons, Nat.succ_sub few, List.drop_succ_cons] at h
      exact Or.inr (ih h same)
    | cons h' hs =>
      rw [List.cons_append] at same
      obtain ⟨rfl, rfl⟩ := List.cons.inj same
      obtain ⟨noted, noted', -⟩ := group.noted handler List.mem_cons_self
      rw [noted, noted'] at h
      simpa using h

/-- A slot that is temporary after an instruction was so before it. -/
theorem retreat {op : Opcode} {a b ip : Nat} (holds : f.closure.unit.Holds f.ip op a b)
    (rests : f.Rests n k) (next : ip ∈ Verifier.successors op a f.ip)
    (high : (n' : Int) ≤ n + Instruction.stackEffect op a b) (low : i < n)
    (h : Temporary ({ f with ip } :: rest) n' i) : Temporary (f :: rest) n i := by
  rcases h with ⟨base, inside, C, follows, free⟩ | below
  · refine Or.inl ⟨base, low, C, follows, fun l mem same => free l ?_ same⟩
    obtain ⟨depth, -⟩ := rests.charted follows
    obtain ⟨names, suits⟩ := follows
    have passes := (suits.fits _ _ _ _ holds).passes ip next
    have now := passes.depth
    simp only at base
    exact passes.kept l mem (by omega)
  · exact Or.inr below

/-- The slots that an instruction has closed over are those of locals. -/
theorem not_bound {a b ip : Nat} (holds : f.closure.unit.Holds f.ip .closeVars a b)
    (rests : f.Rests n k) (next : ip ∈ Verifier.successors .closeVars a f.ip) (low : i < n) (base : f.base + a ≤ n)
    (minded : Minded stack captures rest f.base k') (h : Temporary ({ f with ip } :: rest) n' i) : i + a < n := by
  rcases h with ⟨base, -, C, follows, free⟩ | below
  · obtain ⟨depth, -⟩ := rests.charted follows
    obtain ⟨names, suits⟩ := follows
    have passes := (suits.fits _ _ _ _ holds).passes ip next
    simp only at base
    refine Nat.lt_of_not_le fun top => ?_
    obtain ⟨l, mem, slot⟩ := (passes.binds rfl).2 (i - f.base) (by omega) (by omega)
    exact free l mem (by simp only; omega)
  · have := Temporary.lt below minded
    simp only at this
    omega

end Temporary

end ScriptEngine
