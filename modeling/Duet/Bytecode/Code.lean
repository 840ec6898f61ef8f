import Duet.Arithmetic
import Duet.Bytecode.Opcode

/-!
# Code blocks

A block of code is a sequence of bytes. It has two readings. As a buffer, it grows by assembled
instructions, can be cut, and has two-byte operands overwritten in place; operands that are too
wide for their slot lose their high bits. As a sequence of instructions, `fetch` reads the one
that starts at an offset, which fails on a byte that names no opcode and where operand bytes
are missing.

`Instr` is an instruction with its operand, typed by the width of its slot, so that encoding
one never loses anything.
-/

namespace Duet

/-- An instruction with its operand. -/
inductive Instr where
  | constant (index : UInt8)
  | boolean (value : Bool)
  | nil
  | arith (op : ArithOp)
  | equal
  | notEqual
  | not
  | negate
  | pop
  | jumpIfNotTrue (target : UInt16)
  | jump (target : UInt16)
  | setGlobal (slot : UInt8)
  | getGlobal (slot : UInt8)
  | getLocal (slot : UInt8)
  | call
  | return_
deriving DecidableEq, Repr

/-- The opcode of an operator on integers. -/
def ArithOp.opcode : ArithOp → Opcode
  | .add => .add
  | .subtract => .sub
  | .multiply => .mul
  | .divide => .div
  | .modulo => .modulo
  | .greaterThan => .greaterThan
  | .lessThan => .lessThan

namespace Instr

/-- The opcode of an instruction. -/
def opcode : Instr → Opcode
  | .constant _ => .constant
  | .boolean true => .true_
  | .boolean false => .false_
  | .nil => .nil
  | .arith op => op.opcode
  | .equal => .equal
  | .notEqual => .notEqual
  | .not => .not
  | .negate => .negate
  | .pop => .pop
  | .jumpIfNotTrue _ => .jumpIfNotTrue
  | .jump _ => .jump
  | .setGlobal _ => .setGlobal
  | .getGlobal _ => .getGlobal
  | .getLocal _ => .getLocal
  | .call => .call
  | .return_ => .return_

/-- The operand of an instruction as a number. -/
def operand? : Instr → Option Nat
  | .constant i | .setGlobal i | .getGlobal i | .getLocal i => some i.toNat
  | .jumpIfNotTrue t | .jump t => some t.toNat
  | _ => none

/-- The two bytes of a word, the high one first. -/
def wordBytes (w : UInt16) : List UInt8 :=
  [(w >>> 8).toUInt8, w.toUInt8]

/-- The bytes of an instruction. -/
def encode (i : Instr) : List UInt8 :=
  i.opcode.byte :: match i with
    | .constant n | .setGlobal n | .getGlobal n | .getLocal n => [n]
    | .jumpIfNotTrue t | .jump t => wordBytes t
    | _ => []

/-- The number of bytes of an instruction. -/
def size : Instr → Nat
  | .constant _ | .setGlobal _ | .getGlobal _ | .getLocal _ => 2
  | .jumpIfNotTrue _ | .jump _ => 3
  | _ => 1

/-- An instruction is as long as its opcode says. -/
theorem size_opcode (i : Instr) : i.opcode.size = i.size := by
  cases i with
  | boolean b => cases b <;> rfl
  | arith op => cases op <;> rfl
  | _ => rfl

/-- Encoding takes as many bytes as the size says. -/
@[simp] theorem length_encode (i : Instr) : i.encode.length = i.size := by
  cases i <;> rfl

/-- An instruction takes at least one byte. -/
theorem size_pos (i : Instr) : 0 < i.size := by
  cases i <;> simp [size]

end Instr

/-- The number of bytes of a list of instructions. -/
def codeSize : List Instr → Nat
  | [] => 0
  | i :: is => i.size + codeSize is

@[simp] theorem codeSize_nil : codeSize [] = 0 := rfl

@[simp] theorem codeSize_cons (i : Instr) (is : List Instr) :
    codeSize (i :: is) = i.size + codeSize is := rfl

/-- The code of two lists in a row is as long as both together. -/
@[simp] theorem codeSize_append (a b : List Instr) :
    codeSize (a ++ b) = codeSize a + codeSize b := by
  induction a with
  | nil => simp
  | cons i is ih => simp [ih, Nat.add_assoc]

/-- The bytes of an instruction given by its opcode and operands. An operand keeps the low bits
that fit its slot. -/
def Opcode.assemble (op : Opcode) (operands : List Nat) : List UInt8 :=
  op.byte :: (operands.zip op.operandWidths).flatMap fun (operand, width) =>
    if width = 1 then [operand.toUInt8] else Instr.wordBytes operand.toUInt16

/-- A block of code. -/
structure Code where
  bytes : Array UInt8
deriving DecidableEq, Repr

namespace Code

/-- The number of bytes of a block. -/
def size (c : Code) : Nat := c.bytes.size

/-- The block without bytes. -/
def empty : Code := ⟨#[]⟩

/-- The block of a list of instructions. -/
def ofInstrs (is : List Instr) : Code :=
  ⟨(is.flatMap Instr.encode).toArray⟩

/-- An encoded block has as many bytes as its instructions say. -/
@[simp] theorem size_ofInstrs (is : List Instr) : (ofInstrs is).size = codeSize is := by
  induction is with
  | nil => rfl
  | cons i is ih =>
    simp only [ofInstrs, size, List.size_toArray, List.flatMap_cons, List.length_append,
      Instr.length_encode, codeSize_cons] at *
    omega

/-! ## The block as a buffer -/

/-- The block with an assembled instruction at its end. The instruction starts where the block
ended. -/
def push (c : Code) (op : Opcode) (operands : List Nat) : Code :=
  ⟨c.bytes ++ op.assemble operands⟩

/-- The first `n` bytes of the block. -/
def truncate (c : Code) (n : Nat) : Code :=
  ⟨c.bytes.take n⟩

/-- The byte at an offset. -/
def byteAt? (c : Code) (offset : Nat) : Option UInt8 :=
  c.bytes[offset]?

/-- The word at an offset, its high byte first. -/
def wordAt? (c : Code) (offset : Nat) : Option UInt16 :=
  match c.bytes[offset]?, c.bytes[offset + 1]? with
  | some high, some low => some (high.toUInt16 <<< 8 ||| low.toUInt16)
  | _, _ => none

/-- The block with the two operand bytes of the instruction at `position` overwritten; nothing
if the block has no such bytes. -/
def patch? (c : Code) (position : Nat) (value : UInt16) : Option Code :=
  if position + 3 ≤ c.size then
    some ⟨(c.bytes.setIfInBounds (position + 1) (value >>> 8).toUInt8).setIfInBounds
      (position + 2) value.toUInt8⟩
  else none

/-! ## The block as instructions -/

/-- What stands at an offset of a block. -/
inductive Fetch where
  /-- The offset is not inside the block. -/
  | finished
  /-- The byte names no opcode. -/
  | unknown (byte : UInt8)
  /-- The block ends before the operand does. -/
  | truncated (op : Opcode)
  /-- An instruction. -/
  | instr (i : Instr)
deriving DecidableEq, Repr

/-- An instruction whose operand is one byte. -/
def fetchByte (c : Code) (offset : Nat) (op : Opcode) (make : UInt8 → Instr) : Fetch :=
  match c.byteAt? (offset + 1) with
  | some n => .instr (make n)
  | none => .truncated op

/-- An instruction whose operand is one word. -/
def fetchWord (c : Code) (offset : Nat) (op : Opcode) (make : UInt16 → Instr) : Fetch :=
  match c.wordAt? (offset + 1) with
  | some n => .instr (make n)
  | none => .truncated op

/-- Reads the instruction that starts at an offset. -/
def fetch (c : Code) (offset : Nat) : Fetch :=
  match c.byteAt? offset with
  | none => .finished
  | some byte =>
    match Opcode.ofByte? byte with
    | none => .unknown byte
    | some op =>
      match op with
      | .constant => c.fetchByte offset op .constant
      | .true_ => .instr (.boolean true)
      | .false_ => .instr (.boolean false)
      | .nil => .instr .nil
      | .add => .instr (.arith .add)
      | .sub => .instr (.arith .subtract)
      | .mul => .instr (.arith .multiply)
      | .div => .instr (.arith .divide)
      | .modulo => .instr (.arith .modulo)
      | .greaterThan => .instr (.arith .greaterThan)
      | .lessThan => .instr (.arith .lessThan)
      | .equal => .instr .equal
      | .notEqual => .instr .notEqual
      | .not => .instr .not
      | .negate => .instr .negate
      | .pop => .instr .pop
      | .jumpIfNotTrue => c.fetchWord offset op .jumpIfNotTrue
      | .jump => c.fetchWord offset op .jump
      | .setGlobal => c.fetchByte offset op .setGlobal
      | .getGlobal => c.fetchByte offset op .getGlobal
      | .getLocal => c.fetchByte offset op .getLocal
      | .call => .instr .call
      | .return_ => .instr .return_

end Code

end Duet
