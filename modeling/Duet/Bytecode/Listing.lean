import Duet.Bytecode.Code
import Duet.Text.Lines

/-!
# Compiled programs and their listings

A compiled program is a main block and a pool of constants that all blocks share. Its listing
shows each block one instruction to a line, with the offset in at least four digits. A byte that
names no opcode takes a line of its own; an instruction whose operand is cut off is the last one
of its block.
-/

namespace Duet

/-- An entry of the constant pool. -/
inductive Constant where
  | integer (value : Int)
  | boolean (value : Bool)
  | nil
  /-- A function. Each place of the pool holds a function of its own, so that two places never stand
  for the same one, even if their code is the same. -/
  | function (code : Code)
deriving DecidableEq, Repr

/-- A compiled program. -/
structure Bytecode where
  main : Code
  constants : Array Constant
deriving DecidableEq, Repr

/-- How listings show a boolean. -/
def showBool (b : Bool) : String :=
  if b then "true" else "false"

/-- How values that are functions are shown. -/
def showFunction (code : Code) : String :=
  "<compiled function: " ++ toString code.size ++ " bytes>"

/-- How listings show a constant. -/
def Constant.display : Constant → String
  | .integer value => toString value
  | .boolean value => showBool value
  | .nil => "NIL"
  | .function code => showFunction code

namespace Code

/-- A number in at least four digits. -/
def showOffset (n : Nat) : String :=
  let digits := (toString n).toList
  String.ofList (List.replicate (4 - digits.length) '0' ++ digits)

/-- An instruction as a listing shows it, without its offset. -/
def showInstr (i : Instr) : String :=
  match i.operand? with
  | some n => i.opcode.name ++ " " ++ toString n
  | none => i.opcode.name

/-- The lines of a listing from an offset on. -/
def linesFrom (c : Code) (offset : Nat) : List String :=
  match _h : c.fetch offset with
  | .finished => []
  | .unknown byte =>
    (showOffset offset ++ " <unknown opcode " ++ toString byte.toNat ++ ">")
      :: c.linesFrom (offset + 1)
  | .truncated op => [showOffset offset ++ " " ++ op.name ++ " <truncated>"]
  | .instr i => (showOffset offset ++ " " ++ showInstr i) :: c.linesFrom (offset + i.size)
termination_by c.size - offset
decreasing_by
  all_goals
    have hlt : offset < c.bytes.size := by
      apply Decidable.byContradiction
      intro hge
      have : c.bytes[offset]? = none := Array.getElem?_eq_none (by omega)
      simp [fetch, byteAt?, this] at _h
    try have := i.size_pos
    simp only [size]
    omega

/-- The lines of a listing of a block. -/
def lines (c : Code) : List String :=
  c.linesFrom 0

/-- The listing of a block. -/
def listing (c : Code) : String :=
  Lines.join c.lines

end Code

/-- The lines of a listing for the constants of a pool, the first of which has number `index`. A
function is followed by its own listing, indented. -/
def Constant.lines (index : Nat) : List Constant → List String
  | [] => []
  | c :: cs =>
    let body := match c with
      | .function code => code.lines.map ("    " ++ ·)
      | _ => []
    (toString index ++ ": " ++ c.display) :: body ++ Constant.lines (index + 1) cs

/-- The listing of a compiled program. The part on constants is left out if there are none. -/
def Bytecode.listing (b : Bytecode) : String :=
  let constants := match b.constants.toList with
    | [] => []
    | cs => "== constants ==" :: Constant.lines 0 cs
  Lines.join ("== main ==" :: b.main.lines ++ constants)

end Duet
