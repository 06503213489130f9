import ScriptEngine.Proofs.Machine.Access
import ScriptEngine.Proofs.Verifier.Layout

/-!
# Calls under way

A frame `Rests` where the verifier recorded depths for its next instruction if the stack and the closure
list have exactly these depths above its bases. The frames below the innermost one `Pend`: each rests
once the results that it waits for are there, and the handlers come in groups, one group for the
protected calls that the frame above ends. Whatever ends a call then leaves a frame that rests: a
return, a delivery (`Pends.receive`), or a fault that is caught (`Pends.caught`).
-/

set_option linter.dupNamespace false

namespace ScriptEngine

/-- The closure's unit is laid out for the cells that the closure captured. -/
def Closure.Fits (c : Closure) : Prop := Layout c.upvalues.size c.unit

/-- Stack and closure list have the depths above the frame's bases that are recorded for its next
instruction. -/
def Frame.Rests (f : Frame) (stack captures : Nat) : Prop :=
  ∃ record captured d, Layout.Recorded f.closure.upvalues.size f.closure.unit record captured ∧
    record.at? f.ip = some d ∧ (stack : Int) = f.base + d.depth ∧
    (captures : Int) = f.captureBase + f.closure.upvalues.size + d.closed

/-- The frame waits for `want` results on a stack of the given size. -/
structure Frame.Awaits (f : Frame) (stack captures want : Nat) : Prop where
  base : f.base ≤ stack
  captureBase : f.captureBase ≤ captures
  rests : f.Rests (stack + slots want) captures

/-- The handlers of `n` protected calls that end together, the innermost first: they note the same
state, the first knows of the others, and the last has the results that are wanted. -/
structure Group (n want frames stack captures : Nat) (hs : List Handler) : Prop where
  length : hs.length = n
  noted : ∀ h ∈ hs, h.frames = frames ∧ h.stack = stack ∧ h.captures = captures
  first : ∀ h, hs.head? = some h → h.wraps + 1 = n
  last : ∀ h, hs.getLast? = some h → h.want = want

theorem Group.empty (want frames stack captures : Nat) : Group 0 want frames stack captures [] :=
  ⟨rfl, by simp, by simp, by simp⟩

/-- The handler that knows of the others finds the number of results that are wanted. -/
theorem Group.want_eq {n want frames stack captures : Nat} {h : Handler} {hs : List Handler}
    (group : Group n want frames stack captures (h :: hs)) (outer : List Handler) :
    h.wraps = hs.length ∧ (((((hs ++ outer).take h.wraps)).getLast?).getD h).want = want := by
  have wraps := group.first h rfl
  have length := group.length
  have inner : h.wraps = hs.length := by
    simp only [List.length_cons] at length
    omega
  refine ⟨inner, ?_⟩
  rw [inner, List.take_left]
  apply group.last
  cases hs with
  | nil => rfl
  | cons a as => simp [List.getLast?_cons]

/-- The frames wait for `want` results, which also end `n` protected calls. -/
inductive Pends : List Frame → List Handler → Nat → Nat → Nat → Nat → Prop where
  | idle (stack captures want : Nat) : Pends [] [] stack captures want 0
  | call {f : Frame} {rest : List Frame} {hs hs' : List Handler} {stack captures want n : Nat}
      (awaits : f.Awaits stack captures want)
      (group : Group n want (rest.length + 1) stack captures hs)
      (below : Pends rest hs' f.base f.captureBase f.want f.protections) :
      Pends (f :: rest) (hs ++ hs') stack captures want n

/-- The innermost frame rests and the others wait for it. -/
structure Upright (f : Frame) (rest : List Frame) (handlers : List Handler) (stack captures : Nat) :
    Prop where
  rests : f.Rests stack captures
  below : Pends rest handlers f.base f.captureBase f.want f.protections

/-- The thread's calls are in order and it may take a step. -/
def Thread.Active (t : Thread) : Prop :=
  t.awaitingProtections = 0 ∧
    match t.frames with
    | [] => t.handlers = []
    | f :: rest => Upright f rest t.handlers t.stack.size t.captures.size

/-- The thread waits for what `awaiting` says. -/
def Thread.Blocked (t : Thread) : Prop :=
  Pends t.frames t.handlers t.stack.size t.captures.size t.awaiting t.awaitingProtections

namespace Frame.Rests

variable {f : Frame} {stack captures : Nat}

theorem base_lt (h : f.Rests stack captures) : f.base < stack := by
  obtain ⟨record, captured, d, recorded, here, depth, -⟩ := h
  obtain ⟨ins, op, -, -, legal, -⟩ := recorded.legal _ _ here
  have := legal.operands
  omega

theorem captureBase_le (h : f.Rests stack captures) :
    f.captureBase + f.closure.upvalues.size ≤ captures := by
  obtain ⟨record, captured, d, recorded, here, -, closed⟩ := h
  obtain ⟨ins, op, -, -, legal, -⟩ := recorded.legal _ _ here
  have := legal.closed
  omega

/-- There is only one depth at which a frame rests. -/
theorem stack_unique {stack' captures' : Nat} (h : f.Rests stack captures)
    (h' : f.Rests stack' captures') : stack = stack' := by
  obtain ⟨record, _, d, recorded, here, depth, -⟩ := h
  obtain ⟨record', _, d', recorded', here', depth', -⟩ := h'
  have same := recorded.depths.symm.trans recorded'.depths
  cases same
  rw [here] at here'
  cases here'
  omega

/-- A frame that has just been entered rests. -/
theorem enter {c : Closure} (fits : c.Fits) (base captureBase : Nat) {want protections : Nat} :
    Frame.Rests { closure := c, ip := 0, base, captureBase, want, protections } (base + 1)
      (captureBase + c.upvalues.size) := by
  obtain ⟨record, captured, recorded⟩ := fits.recorded
  refine ⟨record, captured, .initial, recorded, recorded.start, ?_, ?_⟩
  · simp [Depths.initial]
  · simp [Depths.initial]

end Frame.Rests

namespace Pends

variable {frames : List Frame} {handlers : List Handler} {stack captures want n : Nat}

/-- A call that is not protected. -/
theorem plain {f : Frame} {rest : List Frame} (awaits : f.Awaits stack captures want)
    (below : Pends rest handlers f.base f.captureBase f.want f.protections) :
    Pends (f :: rest) handlers stack captures want 0 :=
  .call awaits (.empty ..) below

theorem handlers_of_nil (h : Pends [] handlers stack captures want n) : handlers = [] ∧ n = 0 := by
  cases h with
  | idle => exact ⟨rfl, rfl⟩

/-- There is one handler for each protected call that a frame ends. -/
theorem length_handlers (h : Pends frames handlers stack captures want n) :
    handlers.length = n + (frames.map (·.protections)).sum := by
  induction h with
  | idle => rfl
  | call awaits group below ih =>
    rw [List.length_append, group.length, ih, List.map_cons, List.sum_cons]

/-- With the results on the stack, the innermost frame rests. -/
theorem receive {f : Frame} {rest : List Frame} (h : Pends (f :: rest) handlers stack captures want n) :
    Upright f rest (handlers.drop n) (stack + slots want) captures := by
  cases h with
  | call awaits group below =>
    refine ⟨awaits.rests, ?_⟩
    rw [List.drop_left' group.length]
    exact below

/-- A fault goes to the innermost handler, with the handlers that end together with it. -/
theorem caught {h : Handler} {outer : List Handler}
    (pends : Pends frames (h :: outer) stack captures want n) :
    ∃ f rest, f :: rest = frames.drop (frames.length - h.frames) ∧ (f :: rest).length = h.frames ∧
      h.stack ≤ stack ∧ h.captures ≤ captures ∧
      Upright f rest (outer.drop h.wraps)
        (h.stack + slots (((outer.take h.wraps).getLast?).getD h).want) h.captures := by
  generalize same : h :: outer = handlers at pends
  induction pends with
  | idle => cases same
  | @call f rest hs hs' stack captures want n awaits group below ih =>
    cases hs with
    | nil =>
      -- no protected call ends here, so the fault goes on to the frame below
      obtain ⟨g, rest', suffix, length, stackLe, capturesLe, upright⟩ := ih same
      refine ⟨g, rest', ?_, length, Nat.le_trans stackLe awaits.base,
        Nat.le_trans capturesLe awaits.captureBase, upright⟩
      have : h.frames ≤ rest.length := by
        have := congrArg List.length suffix
        rw [List.length_drop, length] at this
        omega
      rw [suffix, List.length_cons, Nat.succ_sub this]
      rfl
    | cons h' hs =>
      rw [List.cons_append] at same
      obtain ⟨rfl, rfl⟩ := List.cons.inj same
      obtain ⟨noted, noted', noted''⟩ := group.noted h List.mem_cons_self
      obtain ⟨inner, last⟩ := group.want_eq hs'
      refine ⟨f, rest, ?_, ?_, Nat.le_of_eq noted', Nat.le_of_eq noted'', ?_⟩
      · simp [noted]
      · simp [noted]
      · rw [last, inner, List.drop_left, noted', noted'']
        exact ⟨awaits.rests, below⟩

end Pends

end ScriptEngine
