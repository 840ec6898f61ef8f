import Duet.Bytecode.Listing

/-!
# The stack machine: values, state, errors

A machine holds a pool of constants, an operand stack, the globals that have been set, and one
frame for every call that has not returned. The frame that runs and the frames of its callers
are kept apart, so there is always one that runs.

Functions are equal only if they are the same function. Every function comes from the pool, and
each place of the pool holds a function of its own, so the place is the identity of the function.
-/

namespace Duet.Machine

/-- A value on the stack of the machine. -/
inductive Value where
  | integer (value : Int)
  | boolean (value : Bool)
  | nil
  /-- The function at a place of the pool, with its code. -/
  | function (index : Nat) (code : Code)
deriving DecidableEq, Repr

namespace Value

/-- The value of the constant at a place of the pool. -/
def ofConstant (index : Nat) : Constant → Value
  | .integer value => .integer value
  | .boolean value => .boolean value
  | .nil => .nil
  | .function code => .function index code

/-- The value of the result of an operator on integers. -/
def ofArith : ArithResult → Value
  | .integer value => .integer value
  | .boolean value => .boolean value

/-- What messages call a value of this form. -/
def typeName : Value → String
  | .integer _ => "integer"
  | .boolean _ => "boolean"
  | .nil => "nil"
  | .function .. => "function"

/-- Whether a value counts as true: all but nil and false do. -/
def isTruthy : Value → Bool
  | .nil | .boolean false => false
  | _ => true

/-- Whether a value is exactly false. -/
def isFalse : Value → Bool
  | .boolean false => true
  | _ => false

/-- Whether two values are equal. Functions are compared by identity, which is their place in the
pool: each place holds a function of its own. -/
def same : Value → Value → Bool
  | .integer a, .integer b => a = b
  | .boolean a, .boolean b => a = b
  | .nil, .nil => true
  | .function i _, .function j _ => i = j
  | _, _ => false

/-- How a value is shown. -/
def display : Value → String
  | .integer value => toString value
  | .boolean value => showBool value
  | .nil => "NIL"
  | .function _ code => showFunction code

end Value

/-- Why a machine stops before the end of its program. -/
inductive Error where
  | stackUnderflow (op : Opcode)
  | typeMismatch (op : Opcode) (found : String)
  | divisionByZero (op : Opcode)
  | notCallable (found : String)
  | unknownOpcode (byte : UInt8) (offset : Nat)
  | truncatedOperand (op : Opcode) (offset : Nat)
  | jumpOutOfRange (target size : Nat)
  | constantOutOfRange (index : Nat)
  | unsetGlobal (index : Nat)
  | localOutOfRange (index : Nat)
  | returnOutsideFunction
  | missingReturn
deriving DecidableEq, Repr

namespace Error

/-- The catalogue code of an error. -/
def code : Error → String
  | .stackUnderflow _ => "MAL-R001"
  | .typeMismatch .. => "MAL-R002"
  | .divisionByZero _ => "MAL-R003"
  | .notCallable _ => "MAL-R004"
  | .unsetGlobal _ => "MAL-R005"
  | .unknownOpcode .. | .truncatedOperand .. | .jumpOutOfRange .. | .constantOutOfRange _
  | .localOutOfRange _ | .returnOutsideFunction | .missingReturn => "MAL-R006"

/-- The text of an error. -/
def message : Error → String
  | .stackUnderflow op => "stack underflow in " ++ op.name
  | .typeMismatch op found => op.name ++ " expects integer, found " ++ found
  | .divisionByZero op => "division by zero in " ++ op.name
  | .notCallable found => "cannot call a value of type " ++ found
  | .unknownOpcode byte offset =>
    "unknown opcode " ++ toString byte.toNat ++ " at offset " ++ toString offset
  | .truncatedOperand op offset =>
    op.name ++ " at offset " ++ toString offset ++ " is missing its operand"
  | .jumpOutOfRange target size =>
    "jump target " ++ toString target ++ " lies outside the " ++ toString size ++ "-byte block"
  | .constantOutOfRange index => "constant " ++ toString index ++ " is not in the pool"
  | .unsetGlobal index => "global slot " ++ toString index ++ " read before it was set"
  | .localOutOfRange index => "local slot " ++ toString index ++ " is outside the current frame"
  | .returnOutsideFunction => "RETURN executed outside of a function"
  | .missingReturn => "function body ended without RETURN"

end Error

/-- A running block: where it is, and where its argument lies on the stack. -/
structure Frame where
  code : Code
  /-- The offset of the next instruction. -/
  ip : Nat
  /-- The place of the argument on the stack. -/
  base : Nat
deriving DecidableEq, Repr

end Machine

/-- The state of the stack machine. -/
structure Machine where
  pool : Array Constant
  /-- The operand stack, its bottom first. -/
  stack : Array Machine.Value
  /-- The globals by slot, as far as slots have been set. -/
  globals : Array (Option Machine.Value)
  /-- The frame that runs. -/
  frame : Machine.Frame
  /-- The frames that wait for a return, the latest first. -/
  callers : List Machine.Frame
  /-- The values shown so far, in order. -/
  shown : Array Machine.Value
deriving DecidableEq, Repr

namespace Machine

/-- The machine at the start of a program. -/
def start (b : Bytecode) : Machine where
  pool := b.constants
  stack := #[]
  globals := #[]
  frame := ⟨b.main, 0, 0⟩
  callers := []
  shown := #[]

/-- The value of a global slot, if it has been set. -/
def global? (m : Machine) (slot : Nat) : Option Value :=
  m.globals[slot]?.join

/-- The value that was shown last. -/
def lastShown? (m : Machine) : Option Value :=
  m.shown.back?

/-- The number of frames. -/
def depth (m : Machine) : Nat :=
  m.callers.length + 1

end Machine

end Duet
