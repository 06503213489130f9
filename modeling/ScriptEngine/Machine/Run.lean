import ScriptEngine.Machine.Step

/-!
# Running

A run takes steps until the program's outermost call returns. A fault unwinds to the innermost handler:
threads without one die, and if no thread has one the run ends with the fault. How many steps a program
takes is not known beforehand, so a run has an allowance of them.
-/

namespace ScriptEngine.Machine

/-- The fault with the place of the instruction that caused it. -/
def locate (m : Machine) (fault : Fault) : Fault :=
  match m.current.frames with
  | frame :: _ => fault.locate frame.closure.unit.source (frame.closure.unit.lineAt (frame.ip - 1))
  | [] => fault

/-- Lets the innermost handler of the running thread, and the protected calls that end with it, catch
a fault; `outer` are the handlers below it. -/
def catchWith (m : Machine) (handler : Handler) (outer : List Handler) (fault : Fault) : Machine :=
  let ended := outer.take handler.wraps
  let want := ((ended.getLast?).getD handler).want
  let m := m.modifyCurrent fun t =>
    { t.restore handler with handlers := outer.drop handler.wraps, awaitingProtections := 0 }
  m.pushResults want
    (List.replicate handler.wraps (.boolean true) ++ [.boolean false, fault.toValue])

/-- Unwinds from thread `id`, for which the threads in `waiting` wait. None if no handler was found. -/
def unwindFrom (m : Machine) (fault : Fault) (id : Nat) (waiting : List Nat) : Bool × Machine :=
  match (m.thread id).handlers with
  | handler :: outer => (true, { m with running := id, waiting }.catchWith handler outer fault)
  | [] =>
    let m := m.modifyThread id fun _ => {}
    match waiting with
    | [] => (false, { m with running := id, waiting := [] })
    | resumer :: rest => unwindFrom m fault resumer rest

/-- Unwinds to the innermost handler of the threads that run or wait; says whether there is one. -/
def unwind (m : Machine) (fault : Fault) : Bool × Machine := m.unwindFrom fault m.running m.waiting

/-- Runs for at most `steps` steps; none if the program needs more. -/
def run : Nat → Machine → Option (Except Fault (List Value) × Machine)
  | 0, _ => none
  | steps + 1, m =>
    match Exec.step m with
    | .ok none m => run steps m
    | .ok (some results) m => some (.ok results, m)
    | .error fault m =>
      let fault := m.locate fault
      match m.unwind fault with
      | (true, m) => run steps m
      | (false, m) => some (.error fault, m)

/-- Calls a value from the host, for at most `steps` steps. -/
def call (m : Machine) (steps : Nat) (callee : Value) (args : List Value) :
    Option (Except Fault (List Value) × Machine) :=
  let closure := match callee with
    | .closure id => m.store.closures[id]?
    | _ => none
  if !m.waiting.isEmpty || !(m.thread 0).isDead then
    some (.error (.runtime "the VM is already running"), m)
  else match closure, callee with
    | some closure, _ =>
      match Exec.enter closure args 0 0 (m.modifyThread 0 fun _ => {}) with
      | .ok () m => run steps m
      | .error fault m => some (.error fault, m)
    | none, .host id _ =>
      match Exec.callHost id args m with
      | .ok results m => some (.ok results, m)
      | .error fault m => some (.error fault, m)
    | none, _ => some (.error (.call callee.typeName), m)

/-- Runs a unit as a chunk with the given arguments. -/
def execute (m : Machine) (steps : Nat) (unit : CodeUnit) (args : List Value) :
    Option (Except Fault (List Value) × Machine) :=
  let (id, store) := m.store.newClosure ⟨unit, #[]⟩
  { m with store }.call steps (.closure id) args

end ScriptEngine.Machine
