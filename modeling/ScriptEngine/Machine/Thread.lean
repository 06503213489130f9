import ScriptEngine.Store

/-!
# Threads of execution

The program and every coroutine run on a thread of their own, with a value stack, a closure list, call
frames and handlers. Stack slots and closure-list entries are cells of the store, so a nested function
that captured a variable shares its cell with the stack.
-/

namespace ScriptEngine

/-- Limits on what a thread may use. -/
structure Config where
  /-- Frames that a thread may have before a call fails. -/
  maxCallDepth : Nat := 200
  /-- Stack cells that a thread may have when a call is entered. -/
  maxStack : Nat := 1000000
  /-- Metatable links that one read may follow. -/
  maxChainDepth : Nat := 100

/-- An active call. -/
structure Frame where
  closure : Closure
  /-- The address of the next instruction. -/
  ip : Nat
  /-- The stack position of the argument list. -/
  base : Nat
  /-- Where the frame's view of the closure list starts; the closure's own upvalues come first. -/
  captureBase : Nat
  /-- The number of results that the caller keeps; 0 stands for one multi-value. -/
  want : Nat
  /-- The protected calls that the frame was entered through: its return ends them. -/
  protections : Nat := 0
  /-- The call answers a comparison, so its result counts as a truth value. -/
  isCondition : Bool := false

/-- What a protected call restores when it catches a fault. -/
structure Handler where
  frames : Nat
  stack : Nat
  captures : Nat
  want : Nat
  /-- The protected calls whose callee was this one; they end together with it. -/
  wraps : Nat := 0

structure Thread where
  stack : Array Nat := #[]
  /-- The cells that active frames have closed over, in the order of the frames. -/
  captures : Array Nat := #[]
  /-- The active calls, the innermost first. -/
  frames : List Frame := []
  /-- The protected calls under way, the innermost first. -/
  handlers : List Handler := []
  /-- The number of results wanted by the resume or yield that the thread waits in. -/
  awaiting : Nat := 0
  /-- The protected calls around that resume or yield. -/
  awaitingProtections : Nat := 0
  deriving Inhabited

namespace Thread

/-- A coroutine that will call `closure` when it is first resumed. -/
def ofClosure (closure : Closure) : Thread where
  captures := closure.upvalues
  frames := [{ closure, ip := 0, base := 0, captureBase := 0, want := 0 }]

/-- A thread without frames never runs again. -/
def isDead (t : Thread) : Bool := t.frames.isEmpty

/-- The cell `offset` slots below the top, the top itself being at offset 1. -/
def cell? (t : Thread) (offset : Nat) : Option Nat :=
  if offset ≤ t.stack.size then t.stack[t.stack.size - offset]? else none

/-- Changes the innermost frame. -/
def modifyFrame (t : Thread) (f : Frame → Frame) : Thread :=
  match t.frames with
  | [] => t
  | frame :: callers => { t with frames := f frame :: callers }

/-- Changes the innermost handler. -/
def modifyHandler (t : Thread) (f : Handler → Handler) : Thread :=
  match t.handlers with
  | [] => t
  | handler :: outer => { t with handlers := f handler :: outer }

/-- Notes the state that a protected call starts from. -/
def pushHandler (t : Thread) (want : Nat) : Thread :=
  { t with handlers :=
      { frames := t.frames.length, stack := t.stack.size, captures := t.captures.size, want } ::
        t.handlers }

/-- Goes back to the state that `h` noted. -/
def restore (t : Thread) (h : Handler) : Thread :=
  { t with
    frames := t.frames.drop (t.frames.length - h.frames)
    stack := t.stack.shrink h.stack
    captures := t.captures.shrink h.captures }

end Thread

end ScriptEngine
