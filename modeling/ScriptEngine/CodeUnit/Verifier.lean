import ScriptEngine.CodeUnit

/-!
# The static check of stack depths

Whatever path leads to an instruction, the stack must have one depth there and the closure list one
length. `explore` follows all paths from the first instruction and records these depths; it fails at
the first instruction where two paths disagree, an operand is out of range or a depth falls too low.
-/

namespace ScriptEngine

/-- Stack slots above the frame's base, the argument slot included, and the entries that the frame has
added to the closure list. -/
structure Depths where
  depth : Int
  closed : Int
  deriving DecidableEq

namespace Depths

/-- The depths when a frame starts. -/
def initial : Depths := ⟨1, 0⟩

def debugText (d : Depths) : String :=
  "State \x7b depth: " ++ toString d.depth ++ ", closed: " ++ toString d.closed ++ " \x7d"

end Depths

namespace Verifier

inductive Flaw where
  | pastEnd
  | disagreement (first second : Depths)
  | badWord (word : UInt32)
  | readOffset (offset : Nat) (depth : Int)
  | writeOffset (offset : Nat) (depth : Int)
  | constant (index : Nat)
  | nestedUnit (id : Nat)
  | belowOrigin (op : Opcode)
  | overRelease (op : Opcode)
  deriving DecidableEq

def Flaw.message : Flaw → String
  | pastEnd => "control runs past the end of the unit"
  | disagreement first second =>
    "paths disagree: " ++ first.debugText ++ " vs " ++ second.debugText
  | badWord word => "invalid instruction " ++ Text.hexWord word.toNat
  | readOffset offset depth => s!"read offset {offset} outside a frame of {depth}"
  | writeOffset offset depth => s!"write offset {offset} outside a frame of {depth}"
  | constant index => s!"constant {index} out of range"
  | nestedUnit id => s!"no nested unit {id}"
  | belowOrigin op => op.name ++ " pops below the frame origin"
  | overRelease op => op.name ++ " releases more cells than were closed"

/-- A flaw, the unit it is in and the address of the instruction. -/
structure Failure where
  unit : String
  ip : Nat
  flaw : Flaw
  deriving DecidableEq

def Failure.message (f : Failure) : String :=
  "verification of '" ++ f.unit ++ "' failed at " ++ Text.padLeft 4 '0' (toString f.ip) ++ ": " ++
    f.flaw.message

/-- What is wrong with the operands of an instruction at the given depth. -/
def operandFlaw? (u : CodeUnit) (op : Opcode) (a : Nat) (depth : Int) : Option Flaw :=
  match op with
  | .getStack => if a = 0 ∨ depth < a then some (.readOffset a depth) else none
  | .putStack => if a < 2 ∨ depth < a then some (.writeOffset a depth) else none
  | .loadK | .getGlobal | .putGlobal => if u.constants.size ≤ a then some (.constant a) else none
  | .closure => if (u.child? a).isNone then some (.nestedUnit a) else none
  | _ => none

/-- The addresses where control can be after an instruction at `ip`, the one to explore first first. -/
def successors (op : Opcode) (a ip : Nat) : List Nat :=
  match op with
  | .ret => []
  | .jmp => [a]
  | .jmpTrue => [ip + 1, a]
  | _ => [ip + 1]

/-- Checks one instruction entered at the given depths: its opcode and the depths after it. -/
def checkInstruction (u : CodeUnit) (ins : Instruction) (d : Depths) :
    Except Flaw (Opcode × Depths) :=
  match ins.opcode? with
  | none => .error (.badWord ins.word)
  | some op =>
    match operandFlaw? u op ins.a.toNat d.depth with
    | some flaw => .error flaw
    | none =>
      let after : Depths := ⟨d.depth + Instruction.stackEffect op ins.a.toNat ins.b.toNat,
        d.closed + Instruction.closedEffect op ins.a.toNat⟩
      if after.depth < 1 then .error (.belowOrigin op)
      else if after.closed < 0 then .error (.overRelease op)
      else .ok (op, after)

/-- The depths recorded so far, by address. -/
abbrev Record := Array (Option Depths)

/-- The number of addresses without a record. -/
def unseen (record : Record) : Nat := record.toList.countP Option.isNone

theorem unseen_set_lt {record : Record} {ip : Nat} (d : Depths) (h : record[ip]? = some none) :
    unseen (record.setIfInBounds ip (some d)) < unseen record := by
  have bound : ip < record.toList.length := by
    have := (Array.getElem?_eq_some_iff.1 h).1
    simpa using this
  have at_ip : record.toList[ip] = none := by
    have := (Array.getElem?_eq_some_iff.1 h).2
    simpa using this
  have pos : 0 < record.toList.countP Option.isNone := by
    rw [List.countP_pos_iff]
    exact ⟨none, at_ip ▸ List.getElem_mem bound, rfl⟩
  simp only [unseen, Array.toList_setIfInBounds, List.countP_set bound, at_ip]
  simp only [Option.isNone_none, Option.isNone_some, if_true, Bool.false_eq_true, if_false]
  omega

/-- Follows all paths from the addresses in `work`, in order, with the depths they are entered at. -/
def explore (u : CodeUnit) (record : Record) (work : List (Nat × Depths)) :
    Except Failure Record :=
  match work with
  | [] => .ok record
  | (ip, d) :: rest =>
    match u.code[ip]?, h : record[ip]? with
    | some _, some (some earlier) =>
      if earlier = d then explore u record rest
      else .error ⟨u.name, ip, .disagreement earlier d⟩
    | some ins, some none =>
      match checkInstruction u ins d with
      | .error flaw => .error ⟨u.name, ip, flaw⟩
      | .ok (op, after) =>
        have : unseen (record.setIfInBounds ip (some d)) < unseen record := unseen_set_lt d h
        explore u (record.setIfInBounds ip (some d))
          ((successors op ins.a.toNat ip).map (·, after) ++ rest)
    | _, _ => .error ⟨u.name, ip, .pastEnd⟩
termination_by (unseen record, work.length)

/-- The depths at every address that control can reach. -/
def depths (u : CodeUnit) : Except Failure Record :=
  explore u (Array.replicate u.code.size none) [(0, .initial)]

/-- Checks a unit and all units nested in it, in the order of `walk`. -/
def verify (u : CodeUnit) : Except Failure Unit :=
  u.walk.forM fun v => (depths v).map fun _ => ()

end Verifier

end ScriptEngine
