/-!
# Opcodes

An opcode is the first byte of an instruction; it fixes how many operand bytes follow. Twenty
three bytes name an opcode, and `ofByte?` and `byte` are inverse on them.
-/

namespace Duet

/-- What an instruction does, apart from its operand. -/
inductive Opcode where
  | constant | add | sub | mul | div | pop | true_ | false_ | equal | notEqual
  | greaterThan | lessThan | not | negate | jumpIfNotTrue | nil | jump | modulo
  | setGlobal | getGlobal | call | return_ | getLocal
deriving DecidableEq, Repr

namespace Opcode

/-- The byte of an opcode. -/
def byte : Opcode → UInt8
  | .constant => 0
  | .add => 1
  | .sub => 2
  | .mul => 3
  | .div => 4
  | .pop => 5
  | .true_ => 6
  | .false_ => 7
  | .equal => 8
  | .notEqual => 9
  | .greaterThan => 10
  | .lessThan => 11
  | .not => 12
  | .negate => 13
  | .jumpIfNotTrue => 14
  | .nil => 15
  | .jump => 16
  | .modulo => 17
  | .setGlobal => 18
  | .getGlobal => 19
  | .call => 20
  | .return_ => 21
  | .getLocal => 22

/-- The opcode that a byte names. -/
def ofByte? : UInt8 → Option Opcode
  | 0 => some .constant
  | 1 => some .add
  | 2 => some .sub
  | 3 => some .mul
  | 4 => some .div
  | 5 => some .pop
  | 6 => some .true_
  | 7 => some .false_
  | 8 => some .equal
  | 9 => some .notEqual
  | 10 => some .greaterThan
  | 11 => some .lessThan
  | 12 => some .not
  | 13 => some .negate
  | 14 => some .jumpIfNotTrue
  | 15 => some .nil
  | 16 => some .jump
  | 17 => some .modulo
  | 18 => some .setGlobal
  | 19 => some .getGlobal
  | 20 => some .call
  | 21 => some .return_
  | 22 => some .getLocal
  | _ => none

/-- Every opcode is named by its byte. -/
@[simp] theorem ofByte?_byte (op : Opcode) : ofByte? op.byte = some op := by
  cases op <;> rfl

/-- How listings and messages call an opcode. -/
def name : Opcode → String
  | .constant => "CONSTANT"
  | .add => "ADD"
  | .sub => "SUB"
  | .mul => "MUL"
  | .div => "DIV"
  | .pop => "POP"
  | .true_ => "TRUE"
  | .false_ => "FALSE"
  | .equal => "EQUAL"
  | .notEqual => "NOT_EQUAL"
  | .greaterThan => "GT"
  | .lessThan => "LT"
  | .not => "NOT"
  | .negate => "NEGATE"
  | .jumpIfNotTrue => "JUMP_IF_NOT_TRUE"
  | .nil => "NIL"
  | .jump => "JUMP"
  | .modulo => "MODULO"
  | .setGlobal => "SET_GLOBAL"
  | .getGlobal => "GET_GLOBAL"
  | .call => "CALL"
  | .return_ => "RETURN"
  | .getLocal => "GET_LOCAL"

/-- All opcodes, in the order of their bytes. -/
def all : List Opcode :=
  [.constant, .add, .sub, .mul, .div, .pop, .true_, .false_, .equal, .notEqual,
    .greaterThan, .lessThan, .not, .negate, .jumpIfNotTrue, .nil, .jump, .modulo,
    .setGlobal, .getGlobal, .call, .return_, .getLocal]

/-- The opcode with the given name. -/
def ofName? (s : String) : Option Opcode :=
  all.find? (·.name = s)

/-- The number of bytes of each operand that follows the opcode. -/
def operandWidths : Opcode → List Nat
  | .constant | .setGlobal | .getGlobal | .getLocal => [1]
  | .jumpIfNotTrue | .jump => [2]
  | _ => []

/-- The number of bytes of an instruction with this opcode. -/
def size (op : Opcode) : Nat :=
  op.operandWidths.foldl (· + ·) 1

end Opcode

end Duet
