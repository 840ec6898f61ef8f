import Duet.Machine.Basic

/-!
# The stack machine as it lies in memory

`Machine` is built so that some things cannot go wrong: the frame that runs is kept apart from those
of its callers, and what was shown last is read off all that was shown. `RawMachine` is the same
machine without such care. Its frames are one array, the bottom one first, which nothing keeps from
being empty; the value that was popped last has a place of its own; and an array is read or written
at an index only after a comparison with its size.

A program for such a machine has places that should never be reached. They are kept apart from the
errors that a program can bring about: `Stray` lists them, and every run says where it strayed to.
The values that a `pop` discards are handed to whoever runs the machine.
-/

namespace Duet

/-- The state of the machine, with its frames in one array, the bottom one first. -/
structure RawMachine where
  pool : Array Constant
  stack : Array Machine.Value
  globals : Array (Option Machine.Value)
  frames : Array Machine.Frame
  /-- The value that was discarded last. -/
  lastPopped : Option Machine.Value
deriving DecidableEq, Repr

namespace RawMachine

open Machine (Value Error Frame)

/-- A place that should not be reached. -/
inductive Stray where
  /-- A run ends because there is no frame at all. -/
  | noFrame
  /-- A `return` has its result and finds no frame to leave. -/
  | nothingToLeave
  /-- The frame that runs is looked up at an index where there is none. -/
  | frameIndex
  /-- A global is stored at an index where there is no slot. -/
  | globalIndex
deriving DecidableEq, Repr

/-- What came of a step. -/
inductive Outcome where
  /-- The machine can go on; the step may have discarded a value. -/
  | running (discarded : Option Value)
  | halted
  | failed (e : Error)
  | stray (place : Stray)
deriving DecidableEq, Repr

/-- A state and how it was reached. -/
structure Result where
  state : RawMachine
  outcome : Outcome
deriving DecidableEq, Repr

/-- The state reached without error. -/
def ok (m : RawMachine) : Result := ⟨m, .running none⟩

/-- The state in which an error arose. -/
def fail (m : RawMachine) (e : Error) : Result := ⟨m, .failed e⟩

/-- The state in which the program strayed. -/
def strayAt (m : RawMachine) (place : Stray) : Result := ⟨m, .stray place⟩

/-- The machine with one more value on its stack. -/
def push (m : RawMachine) (v : Value) : RawMachine :=
  { m with stack := m.stack.push v }

/-- Takes the topmost value off the stack and goes on with it. -/
def pop (m : RawMachine) (op : Opcode) (next : Value → RawMachine → Result) : Result :=
  match m.stack.back? with
  | none => m.fail (.stackUnderflow op)
  | some v => next v { m with stack := m.stack.pop }

/-- Looks up the frame at the last index and goes on with it. -/
def withFrame (m : RawMachine) (next : Frame → Result) : Result :=
  match m.frames[m.frames.size - 1]? with
  | some f => next f
  | none => m.strayAt .frameIndex

/-- Moves the frame at the last index to another offset and goes on. -/
def setIp (m : RawMachine) (ip : Nat) (next : RawMachine → Result) : Result :=
  m.withFrame fun f =>
    next { m with frames := m.frames.setIfInBounds (m.frames.size - 1) { f with ip := ip } }

/-- Goes on at another offset of the running block, at most at its end. -/
def jump (m : RawMachine) (target : Nat) : Result :=
  m.withFrame fun f =>
    if target ≤ f.code.size then m.setIp target ok
    else m.fail (.jumpOutOfRange target f.code.size)

/-- Carries out an operator on the two topmost values, the right operand on top. -/
def execArith (m : RawMachine) (op : ArithOp) : Result :=
  m.pop op.opcode fun right m => m.pop op.opcode fun left m =>
    match left, right with
    | .integer l, .integer r =>
      match op.result? l r with
      | some result => ok (m.push (.ofArith result))
      | none => m.fail (.divisionByZero op.opcode)
    | .integer _, other => m.fail (.typeMismatch op.opcode other.typeName)
    | other, _ => m.fail (.typeMismatch op.opcode other.typeName)

/-- The globals with unset slots added until the given slot is there. -/
def growGlobals (globals : Array (Option Value)) (slot : Nat) : Array (Option Value) :=
  if globals.size ≤ slot then globals ++ Array.replicate (slot + 1 - globals.size) none
  else globals

/-- Stores a value in a global slot. -/
def execSetGlobal (m : RawMachine) (slot : Nat) (v : Value) : Result :=
  let globals := growGlobals m.globals slot
  if h : slot < globals.size then ok { m with globals := globals.set slot (some v) h }
  else m.strayAt .globalIndex

/-- Calls the function on top of the stack. -/
def execCall (m : RawMachine) : Result :=
  m.pop .call fun callee m =>
    match callee with
    | .function _ code =>
      if m.stack.size = 0 then m.fail (.stackUnderflow .call)
      else ok { m with frames := m.frames.push ⟨code, 0, m.stack.size - 1⟩ }
    | other => m.fail (.notCallable other.typeName)

/-- Leaves a function. -/
def execReturn (m : RawMachine) : Result :=
  if m.frames.size = 1 then m.fail .returnOutsideFunction
  else
    m.pop .return_ fun v m =>
      match m.frames.back? with
      | none => m.strayAt .nothingToLeave
      | some f =>
        ok { m with frames := m.frames.pop, stack := (m.stack.shrink f.base).push v }

/-- Carries out an instruction. The offset of the next one has already been advanced. -/
def exec (m : RawMachine) : Instr → Result
  | .constant index =>
    match m.pool[index.toNat]? with
    | some c => ok (m.push (.ofConstant index.toNat c))
    | none => m.fail (.constantOutOfRange index.toNat)
  | .boolean value => ok (m.push (.boolean value))
  | .nil => ok (m.push .nil)
  | .arith op => m.execArith op
  | .equal =>
    m.pop .equal fun right m => m.pop .equal fun left m =>
      ok (m.push (.boolean (left.same right)))
  | .notEqual =>
    m.pop .notEqual fun right m => m.pop .notEqual fun left m =>
      ok (m.push (.boolean (!left.same right)))
  | .not => m.pop .not fun v m => ok (m.push (.boolean v.isFalse))
  | .negate =>
    m.pop .negate fun v m =>
      match v with
      | .integer n => ok (m.push (.integer (-n)))
      | other => m.fail (.typeMismatch .negate other.typeName)
  | .pop => m.pop .pop fun v m => ⟨{ m with lastPopped := some v }, .running (some v)⟩
  | .jumpIfNotTrue target =>
    m.pop .jumpIfNotTrue fun v m => if v.isTruthy then ok m else m.jump target.toNat
  | .jump target => m.jump target.toNat
  | .setGlobal slot => m.pop .setGlobal fun v m => m.execSetGlobal slot.toNat v
  | .getGlobal slot =>
    match m.globals[slot.toNat]?.join with
    | some v => ok (m.push v)
    | none => m.fail (.unsetGlobal slot.toNat)
  | .getLocal slot =>
    m.withFrame fun f =>
      match m.stack[f.base + slot.toNat]? with
      | some v => ok (m.push v)
      | none => m.fail (.localOutOfRange slot.toNat)
  | .call => m.execCall
  | .return_ => m.execReturn

/-- Fetches the next instruction and carries it out. -/
def step (m : RawMachine) : Result :=
  match m.frames.back? with
  | none => m.strayAt .noFrame
  | some f =>
    match f.code.fetch f.ip with
    | .finished => if m.frames.size = 1 then ⟨m, .halted⟩ else m.fail .missingReturn
    | .unknown byte => m.fail (.unknownOpcode byte f.ip)
    | .truncated op => m.fail (.truncatedOperand op f.ip)
    | .instr i => m.setIp (f.ip + i.size) fun m => m.exec i

/-- How a run ended. -/
inductive Ending where
  | halted
  | failed (e : Error)
  | stray (place : Stray)
  | outOfFuel
deriving DecidableEq, Repr

/-- A run: where it ended and how, and all values that were handed over, in order. -/
structure Run where
  state : RawMachine
  ending : Ending
  handed : Array Value
deriving DecidableEq, Repr

/-- Runs for at most as many steps as the fuel says, after the given values have been handed
over. -/
def runAtFuel : Nat → RawMachine → (handed : Array Value) → Run
  | 0, m, handed => ⟨m, .outOfFuel, handed⟩
  | n + 1, m, handed =>
    match m.step with
    | ⟨m, .running none⟩ => runAtFuel n m handed
    | ⟨m, .running (some v)⟩ => runAtFuel n m (handed.push v)
    | ⟨m, .halted⟩ => ⟨m, .halted, handed⟩
    | ⟨m, .failed e⟩ => ⟨m, .failed e, handed⟩
    | ⟨m, .stray place⟩ => ⟨m, .stray place, handed⟩

/-- The machine at the start of a program. -/
def start (b : Bytecode) : RawMachine where
  pool := b.constants
  stack := #[]
  globals := #[]
  frames := #[⟨b.main, 0, 0⟩]
  lastPopped := none

end RawMachine

end Duet
