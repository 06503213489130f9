import ScriptEngine.CodeUnit
import ScriptEngine.Text.Quoted

/-!
# Listings of compiled units

A unit is shown as a heading, its constants and its instructions with their lines; nested units follow,
an empty line before each.
-/

namespace ScriptEngine.CodeUnit

/-- A constant as shown in a listing. -/
def constantText : Value → String
  | .string s => Text.quoted s
  | v => v.text

/-- An address as shown in a listing. -/
def addressText (n : Nat) : String := Text.padLeft 4 '0' (toString n)

/-- An instruction as shown in a listing. -/
def instructionText (u : CodeUnit) (ins : Instruction) : String :=
  match ins.opcode? with
  | none => "??? " ++ Text.hexWord ins.word.toNat
  | some op =>
    let a := ins.a.toNat
    let b := ins.b.toNat
    let name := Text.padRight 10 op.mnemonic ++ " "
    match op with
    | .loadK | .getGlobal | .putGlobal =>
      name ++ "K" ++ toString a ++ "(" ++ ((u.constants[a]?).map constantText).getD "?" ++ ")"
    | .jmp => name ++ "-> " ++ addressText a
    | .jmpTrue => name ++ "-> " ++ addressText a ++ (if b = 1 then "  peek" else "  pop")
    | .call =>
      name ++ "args=" ++ toString a ++ "  results=" ++ (if b = 0 then "multi" else toString b)
    | .popVarArgs => name ++ toString a ++ (if b = 1 then "  consume" else "  keep rest")
    | .closure => name ++ "#" ++ toString a ++ "(" ++ ((u.child? a).map CodeUnit.name).getD "?" ++ ")"
    | .getStack | .putStack | .popStack | .ret | .closeVars | .popClosed | .getUpval | .putUpval =>
      name ++ toString a
    | _ => op.mnemonic

/-- The listing of one unit, without its nested units. -/
def sheet (u : CodeUnit) : String :=
  let heading := "== " ++ u.name ++ " #" ++ toString u.id ++ " ==  (source=" ++ u.source ++
    ", params=" ++ toString u.paramCount ++ ", vararg=" ++ toString u.isVararg ++ ")\n"
  let constants := u.constants.toList.zipIdx.map fun (v, i) =>
    "  [K" ++ toString i ++ "]  " ++ constantText v ++ "\n"
  let instructions := u.code.toList.zipIdx.map fun (ins, i) =>
    "  " ++ addressText i ++ "  [" ++ Text.padLeft 3 ' ' (toString (u.lineAt i)) ++ "]  " ++
      u.instructionText ins ++ "\n"
  heading ++ (if constants.isEmpty then "" else "constants:\n" ++ String.join constants) ++
    "instructions:\n" ++ String.join instructions

/-- The listing of a unit and all units nested in it. -/
def listing (u : CodeUnit) : String := "\n".intercalate (u.walk.map sheet)

end ScriptEngine.CodeUnit
