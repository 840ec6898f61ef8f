import Duet.Machine.Basic

/-!
# The stack machine: steps and runs

`exec` carries out one instruction. It always yields a state, and an error beside it if the
instruction failed; in that state the operands taken so far are gone and no frame has been left.
`step` fetches the next instruction and carries it out. `runAtFuel` repeats it at most as often
as its fuel says; running out of fuel is told apart from halting and from failing, and
`runAtFuel_mono` says that more fuel never changes an answer.
-/

namespace Duet.Machine

/-- A state and the error with which it was reached, if any. -/
structure Result where
  state : Machine
  error : Option Error
deriving DecidableEq, Repr

/-- The state reached without error. -/
def ok (m : Machine) : Result := ⟨m, none⟩

/-- The state in which an error arose. -/
def fail (m : Machine) (e : Error) : Result := ⟨m, some e⟩

/-- The machine with one more value on its stack. -/
def push (m : Machine) (v : Value) : Machine :=
  { m with stack := m.stack.push v }

/-- Takes the topmost value off the stack and goes on with it. -/
def pop (m : Machine) (op : Opcode) (next : Value → Machine → Result) : Result :=
  match m.stack.back? with
  | none => m.fail (.stackUnderflow op)
  | some v => next v { m with stack := m.stack.pop }

/-- Goes on at another offset of the running block, at most at its end. -/
def jump (m : Machine) (target : Nat) : Result :=
  if target ≤ m.frame.code.size then ok { m with frame := { m.frame with ip := target } }
  else m.fail (.jumpOutOfRange target m.frame.code.size)

/-- Carries out an operator on the two topmost values, the right operand on top. If the left
operand is an integer and the right one is not, the right one is at fault, else the left one. -/
def execArith (m : Machine) (op : ArithOp) : Result :=
  m.pop op.opcode fun right m => m.pop op.opcode fun left m =>
    match left, right with
    | .integer l, .integer r =>
      match op.result? l r with
      | some result => ok (m.push (.ofArith result))
      | none => m.fail (.divisionByZero op.opcode)
    | .integer _, other => m.fail (.typeMismatch op.opcode other.typeName)
    | other, _ => m.fail (.typeMismatch op.opcode other.typeName)

/-- The globals with one slot set. Slots between the last one and a new one stay unset. -/
def setSlot (globals : Array (Option Value)) (slot : Nat) (v : Value) : Array (Option Value) :=
  if slot < globals.size then globals.setIfInBounds slot (some v)
  else (globals ++ Array.replicate (slot - globals.size) none).push (some v)

/-- Calls the function on top of the stack. Its argument, the value below, stays where it is and
becomes the base of the new frame. -/
def execCall (m : Machine) : Result :=
  m.pop .call fun callee m =>
    match callee with
    | .function _ code =>
      if m.stack.size = 0 then m.fail (.stackUnderflow .call)
      else ok { m with frame := ⟨code, 0, m.stack.size - 1⟩, callers := m.frame :: m.callers }
    | other => m.fail (.notCallable other.typeName)

/-- Leaves a function: the result takes the place of the argument and of all above it. -/
def execReturn (m : Machine) : Result :=
  match m.callers with
  | [] => m.fail .returnOutsideFunction
  | caller :: callers =>
    m.pop .return_ fun v m =>
      ok { m with
        stack := (m.stack.shrink m.frame.base).push v
        frame := caller
        callers := callers }

/-- Carries out an instruction. The offset of the next one has already been advanced. -/
def exec (m : Machine) : Instr → Result
  | .constant index =>
    match m.pool[index.toNat]? with
    | some c => ok (m.push (.ofConstant index.toNat c))
    | none => m.fail (.constantOutOfRange index.toNat)
  | .boolean value => ok (m.push (.boolean value))
  | .nil => ok (m.push .nil)
  | .arith op => m.execArith op
  | .equal =>
    m.pop .equal fun right m => m.pop .equal fun left m =>
      ok (m.push (.boolean (left.same right)))
  | .notEqual =>
    m.pop .notEqual fun right m => m.pop .notEqual fun left m =>
      ok (m.push (.boolean (!left.same right)))
  | .not => m.pop .not fun v m => ok (m.push (.boolean v.isFalse))
  | .negate =>
    m.pop .negate fun v m =>
      match v with
      | .integer n => ok (m.push (.integer (-n)))
      | other => m.fail (.typeMismatch .negate other.typeName)
  | .pop => m.pop .pop fun v m => ok { m with shown := m.shown.push v }
  | .jumpIfNotTrue target =>
    m.pop .jumpIfNotTrue fun v m => if v.isTruthy then ok m else m.jump target.toNat
  | .jump target => m.jump target.toNat
  | .setGlobal slot =>
    m.pop .setGlobal fun v m => ok { m with globals := setSlot m.globals slot.toNat v }
  | .getGlobal slot =>
    match m.global? slot.toNat with
    | some v => ok (m.push v)
    | none => m.fail (.unsetGlobal slot.toNat)
  | .getLocal slot =>
    match m.stack[m.frame.base + slot.toNat]? with
    | some v => ok (m.push v)
    | none => m.fail (.localOutOfRange slot.toNat)
  | .call => m.execCall
  | .return_ => m.execReturn

/-- What one step leads to. -/
inductive Step where
  /-- The machine can go on. -/
  | running (m : Machine)
  /-- The main block has ended. -/
  | halted (m : Machine)
  /-- The machine has stopped with an error. -/
  | failed (e : Error) (m : Machine)
deriving DecidableEq, Repr

/-- Fetches the next instruction and carries it out. -/
def step (m : Machine) : Step :=
  match m.frame.code.fetch m.frame.ip with
  | .finished => if m.callers.isEmpty then .halted m else .failed .missingReturn m
  | .unknown byte => .failed (.unknownOpcode byte m.frame.ip) m
  | .truncated op => .failed (.truncatedOperand op m.frame.ip) m
  | .instr i =>
    match exec { m with frame := { m.frame with ip := m.frame.ip + i.size } } i with
    | ⟨m, none⟩ => .running m
    | ⟨m, some e⟩ => .failed e m

/-- How a run ended. -/
inductive Run where
  | halted (m : Machine)
  | failed (e : Error) (m : Machine)
  | outOfFuel (m : Machine)
deriving DecidableEq, Repr

/-- Runs for at most as many steps as the fuel says. -/
def runAtFuel : Nat → Machine → Run
  | 0, m => .outOfFuel m
  | n + 1, m =>
    match m.step with
    | .running m => runAtFuel n m
    | .halted m => .halted m
    | .failed e m => .failed e m

/-- The state in which a run ended. -/
def Run.state : Run → Machine
  | .halted m | .failed _ m | .outOfFuel m => m

/-- The error with which a run ended, if any. -/
def Run.error? : Run → Option Error
  | .failed e _ => some e
  | _ => none

/-- Whether a run ended before its fuel did. -/
def Run.isFinished : Run → Bool
  | .outOfFuel _ => false
  | _ => true

/-- A run that has finished does not change with more fuel. -/
theorem runAtFuel_mono {n k : Nat} (hk : n ≤ k) {m : Machine}
    (h : (runAtFuel n m).isFinished = true) : runAtFuel k m = runAtFuel n m := by
  induction n generalizing k m with
  | zero => simp [runAtFuel, Run.isFinished] at h
  | succ n ih =>
    obtain ⟨k, rfl⟩ : ∃ j, k = j + 1 := ⟨k - 1, by omega⟩
    simp only [runAtFuel] at h ⊢
    cases hs : m.step with
    | running m' =>
      simp only [hs] at h ⊢
      exact ih (by omega) h
    | halted m' => rfl
    | failed e m' => rfl

end Duet.Machine
