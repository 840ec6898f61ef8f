import Duet.Machine.Raw
import Duet.Proofs.RunInvariants

/-!
# The machine in memory never goes astray

`RawMachine` keeps its frames in one array and has places that should not be reached. Every state of
`Machine` can be laid out in this way, `toRaw`, and the two machines then go on in step, whatever
their bytecode is: bytes that are no instructions, jumps into operands, functions that take more from
the stack than they were given. So the raw machine strays from its program as little as the other one
can, which is not at all, and has every invariant of the other one.

* `exec_toRaw`, `step_toRaw`, `runAtFuel_toRaw`: the two machines agree, on one instruction, on one
  step, and on a run of any length; a value is handed over exactly where the other machine shows it.
* `RawMachine.Intact`: what holds in every state of a run, and in a state that was left by an error.
* `rawRun_intact`: no run strays, and all its states are intact.
-/

namespace Duet

namespace Machine

/-- The machine as it lies in memory. -/
def toRaw (m : Machine) : RawMachine where
  pool := m.pool
  stack := m.stack
  globals := m.globals
  frames := (m.frame :: m.callers).reverse.toArray
  lastPopped := m.lastShown?

/-- What carrying out an instruction led to, as it lies in memory. -/
def Result.toRaw (discarded : Option Value) : Result → RawMachine.Result
  | ⟨m, none⟩ => ⟨m.toRaw, .running discarded⟩
  | ⟨m, some e⟩ => ⟨m.toRaw, .failed e⟩

/-- What a step led to, as it lies in memory. -/
def Step.toRaw (discarded : Option Value) : Step → RawMachine.Result
  | .running m => ⟨m.toRaw, .running discarded⟩
  | .halted m => ⟨m.toRaw, .halted⟩
  | .failed e m => ⟨m.toRaw, .failed e⟩

/-- What a run led to, as it lies in memory; all that was shown has been handed over. -/
def Run.toRaw : Run → RawMachine.Run
  | .halted m => ⟨m.toRaw, .halted, m.shown⟩
  | .failed e m => ⟨m.toRaw, .failed e, m.shown⟩
  | .outOfFuel m => ⟨m.toRaw, .outOfFuel, m.shown⟩

/-- The value that an instruction discards. -/
def discards? (m : Machine) : Instr → Option Value
  | .pop => m.stack.back?
  | _ => none

/-! ## One instruction -/

section lockstep

variable {m : Machine} {op : Opcode} {discarded : Option Value}

/-- In memory the frame that runs is the last one, behind its callers. -/
theorem frames_toRaw (m : Machine) : m.toRaw.frames = m.callers.reverse.toArray.push m.frame := by
  simp [toRaw]

/-- In memory there is one frame more than there are callers. -/
theorem size_frames_toRaw (m : Machine) : m.toRaw.frames.size = m.callers.length + 1 := by
  simp [toRaw]

/-- In memory the frames are counted from the bottom. -/
theorem getElem?_frames_toRaw (m : Machine) (k : Nat) :
    m.toRaw.frames[k]? = (m.frame :: m.callers).reverse[k]? :=
  List.getElem?_toArray

/-- In memory there is always a frame that runs. -/
theorem withFrame_toRaw (m : Machine) (next : Frame → RawMachine.Result) :
    m.toRaw.withFrame next = next m.frame := by
  have hlast : m.toRaw.frames[m.toRaw.frames.size - 1]? = some m.frame := by
    simp [frames_toRaw]
  unfold RawMachine.withFrame
  rw [hlast]

/-- Moving the offset of the last frame in memory is going to the offset. -/
theorem setIp_toRaw (m : Machine) (ip : Nat) (next : RawMachine → RawMachine.Result) :
    m.toRaw.setIp ip next = next (m.goto ip).toRaw := by
  have hset : m.toRaw.frames.setIfInBounds (m.toRaw.frames.size - 1) { m.frame with ip := ip }
      = (m.goto ip).toRaw.frames := by
    rw [frames_toRaw, frames_toRaw]
    simp [Array.setIfInBounds, Machine.goto]
  unfold RawMachine.setIp
  rw [withFrame_toRaw, hset]
  rfl

/-- A value is taken off the stack in memory as it is in the machine, if both go on alike with
it. -/
theorem pop_toRaw {next : Value → Machine → Result}
    {rawNext : Value → RawMachine → RawMachine.Result}
    (h : ∀ v s, rawNext v ({ m with stack := s } : Machine).toRaw
      = (next v { m with stack := s }).toRaw discarded) :
    m.toRaw.pop op rawNext = (m.pop op next).toRaw discarded := by
  have hraw : m.toRaw.stack.back? = m.stack.back? := rfl
  unfold RawMachine.pop Machine.pop
  rw [hraw]
  cases m.stack.back? with
  | none => rfl
  | some v => exact h v m.stack.pop

/-- A jump is the same in memory. -/
theorem jump_toRaw (m : Machine) (target : Nat) :
    m.toRaw.jump target = (m.jump target).toRaw none := by
  unfold RawMachine.jump Machine.jump
  rw [withFrame_toRaw]
  by_cases hle : target ≤ m.frame.code.size
  · rw [if_pos hle, if_pos hle, setIp_toRaw]
    rfl
  · rw [if_neg hle, if_neg hle]
    rfl

/-- Arithmetic is the same in memory. -/
theorem execArith_toRaw (m : Machine) (op : ArithOp) :
    m.toRaw.execArith op = (m.execArith op).toRaw none := by
  refine pop_toRaw fun right s => pop_toRaw fun left s => ?_
  cases left with
  | integer l =>
    cases right with
    | integer r => cases hres : op.result? l r <;> simp only [hres] <;> rfl
    | _ => rfl
  | _ => rfl

/-- Growing the globals until a slot is there, and then writing the slot, sets it. -/
theorem set_growGlobals (globals : Array (Option Value)) (slot : Nat) (v : Value)
    (h : slot < (RawMachine.growGlobals globals slot).size) :
    (RawMachine.growGlobals globals slot).set slot (some v) h = setSlot globals slot v := by
  unfold setSlot
  by_cases hlt : slot < globals.size
  · have hgrow : RawMachine.growGlobals globals slot = globals := if_neg (Nat.not_le_of_lt hlt)
    simp only [hgrow, if_pos hlt]
    rw [Array.setIfInBounds_def, dif_pos hlt]
  · have hle := Nat.le_of_not_lt hlt
    have hgrow : RawMachine.growGlobals globals slot
        = (globals ++ Array.replicate (slot - globals.size) none).push none := by
      unfold RawMachine.growGlobals
      rw [if_pos hle, Nat.succ_sub hle, Array.replicate_succ, Array.append_push]
    simp only [hgrow, if_neg hlt]
    rw [Array.set_push, dif_neg]
    rw [Array.size_append, Array.size_replicate]
    omega

/-- The setting of a global is the same in memory. -/
theorem execSetGlobal_toRaw (m : Machine) (slot : Nat) (v : Value) :
    m.toRaw.execSetGlobal slot v
      = (ok { m with globals := setSlot m.globals slot v }).toRaw none := by
  have hroom : slot < (RawMachine.growGlobals m.globals slot).size := by
    unfold RawMachine.growGlobals
    split
    · rw [Array.size_append, Array.size_replicate]
      omega
    · omega
  have hstored : m.toRaw.execSetGlobal slot v = RawMachine.ok { m.toRaw with
      globals := (RawMachine.growGlobals m.globals slot).set slot (some v) hroom } :=
    dif_pos hroom
  rw [hstored, set_growGlobals]
  rfl

/-- A call is the same in memory. -/
theorem execCall_toRaw (m : Machine) : m.toRaw.execCall = m.execCall.toRaw none := by
  refine pop_toRaw fun callee s => ?_
  cases callee with
  | function j code =>
    by_cases hsize : s.size = 0
    · simp only [toRaw, hsize, if_pos]
      rfl
    · simp [Result.toRaw, toRaw, RawMachine.ok, ok, lastShown?, hsize]
  | _ => rfl

/-- A `return` is the same in memory. -/
theorem execReturn_toRaw (m : Machine) : m.toRaw.execReturn = m.execReturn.toRaw none := by
  unfold RawMachine.execReturn Machine.execReturn
  rw [size_frames_toRaw]
  cases hcallers : m.callers with
  | nil => rfl
  | cons caller callers =>
    rw [if_neg (by simp)]
    refine pop_toRaw fun v s => ?_
    have hback : m.toRaw.frames.back? = some m.frame := by
      rw [frames_toRaw, Array.back?_push]
    have hpop : m.toRaw.frames.pop = (caller :: callers).reverse.toArray := by
      rw [frames_toRaw, Array.pop_push, hcallers]
    have hframes : ({ m with stack := s } : Machine).toRaw.frames = m.toRaw.frames := rfl
    simp only [hframes, hback, hpop]
    rfl

end lockstep

/-- The two machines carry out an instruction in the same way. -/
theorem exec_toRaw (m : Machine) (i : Instr) :
    m.toRaw.exec i = (m.exec i).toRaw (m.discards? i) := by
  cases i with
  | constant index =>
    have hraw : m.toRaw.pool[index.toNat]? = m.pool[index.toNat]? := rfl
    rw [RawMachine.exec, Machine.exec, hraw]
    cases m.pool[index.toNat]? <;> rfl
  | boolean b => rfl
  | nil => rfl
  | arith op => exact execArith_toRaw m op
  | equal =>
    rw [RawMachine.exec, Machine.exec]
    exact pop_toRaw fun _ _ => pop_toRaw fun _ _ => rfl
  | notEqual =>
    rw [RawMachine.exec, Machine.exec]
    exact pop_toRaw fun _ _ => pop_toRaw fun _ _ => rfl
  | not =>
    rw [RawMachine.exec, Machine.exec]
    exact pop_toRaw fun _ _ => rfl
  | negate =>
    rw [RawMachine.exec, Machine.exec]
    refine pop_toRaw fun v s => ?_
    cases v <;> rfl
  | pop =>
    have hraw : m.toRaw.stack.back? = m.stack.back? := rfl
    rw [RawMachine.exec, Machine.exec, RawMachine.pop, Machine.pop, discards?, hraw]
    cases m.stack.back? with
    | none => rfl
    | some v => simp [Result.toRaw, toRaw, ok, lastShown?]
  | jumpIfNotTrue target =>
    rw [RawMachine.exec, Machine.exec]
    refine pop_toRaw fun v s => ?_
    cases v.isTruthy with
    | true => rfl
    | false => exact jump_toRaw _ _
  | jump target => exact jump_toRaw m target.toNat
  | setGlobal slot =>
    rw [RawMachine.exec, Machine.exec]
    exact pop_toRaw fun v s => execSetGlobal_toRaw _ _ v
  | getGlobal slot =>
    have hraw : m.toRaw.globals[slot.toNat]?.join = m.global? slot.toNat := rfl
    rw [RawMachine.exec, Machine.exec, hraw]
    cases m.global? slot.toNat <;> rfl
  | getLocal slot =>
    have hraw : m.toRaw.stack[m.frame.base + slot.toNat]?
        = m.stack[m.frame.base + slot.toNat]? := rfl
    rw [RawMachine.exec, Machine.exec, withFrame_toRaw, hraw]
    cases m.stack[m.frame.base + slot.toNat]? <;> rfl
  | call => exact execCall_toRaw m
  | return_ => exact execReturn_toRaw m

/-! ## Steps and runs -/

/-- The value that the next step discards. -/
def discarding? (m : Machine) : Option Value :=
  match m.frame.code.fetch m.frame.ip with
  | .instr i => m.discards? i
  | _ => none

/-- What the next step discards is what its instruction discards. -/
theorem discarding?_of_fetch {m : Machine} {i : Instr}
    (h : m.frame.code.fetch m.frame.ip = .instr i) : m.discarding? = m.discards? i := by
  unfold discarding?
  rw [h]

/-- The two machines take the same steps. -/
theorem step_toRaw (m : Machine) : m.toRaw.step = m.step.toRaw m.discarding? := by
  have hback : m.toRaw.frames.back? = some m.frame := by
    rw [frames_toRaw, Array.back?_push]
  unfold RawMachine.step Machine.step
  rw [hback, size_frames_toRaw]
  simp only
  cases hfetch : m.frame.code.fetch m.frame.ip with
  | finished => cases hcallers : m.callers <;> simp [Step.toRaw, RawMachine.fail]
  | unknown byte => rfl
  | truncated op => rfl
  | instr i =>
    simp only
    rw [setIp_toRaw, exec_toRaw, discarding?_of_fetch hfetch]
    change _ = ((m.goto (m.frame.ip + i.size)).exec i).toStep.toRaw (m.discards? i)
    rcases (m.goto (m.frame.ip + i.size)).exec i with ⟨m', _ | e⟩
    · rfl
    · rfl

/-- Whatever an instruction discards has been shown by it. -/
theorem Executes.shown_eq {m m' : Machine} {i : Instr} (h : Executes m i m') :
    m'.shown = m.shown ++ (m.discards? i).toArray := by
  cases h with
  | pop hs =>
    unfold discards?
    rw [hs, Array.back?_push]
    rfl
  | _ => exact Array.append_empty.symm

/-- The two machines do the same in a run of any length, and the raw one hands over what the other
one shows. -/
theorem runAtFuel_toRaw (n : Nat) (m : Machine) :
    m.toRaw.runAtFuel n m.shown = (m.runAtFuel n).toRaw := by
  induction n generalizing m with
  | zero => rfl
  | succ n ih =>
    have hraw := step_toRaw m
    unfold RawMachine.runAtFuel runAtFuel
    cases hstep : m.step with
    | running m' =>
      obtain ⟨i, hfetch, hexec⟩ := step_eq_running_iff.mp hstep
      have hshown : m'.shown = m.shown ++ m.discarding?.toArray := by
        rw [discarding?_of_fetch hfetch]
        exact hexec.shown_eq
      rw [hraw, hstep]
      cases hd : m.discarding? with
      | none =>
        rw [hd, Option.toArray_none, Array.append_empty] at hshown
        show m'.toRaw.runAtFuel n m.shown = (m'.runAtFuel n).toRaw
        rw [← hshown]
        exact ih m'
      | some v =>
        rw [hd, Option.toArray_some, Array.append_singleton] at hshown
        show m'.toRaw.runAtFuel n (m.shown.push v) = (m'.runAtFuel n).toRaw
        rw [← hshown]
        exact ih m'
    | halted m' =>
      obtain rfl := eq_of_step_halted hstep
      rw [hraw, hstep]
      rfl
    | failed e m' =>
      have hshown : m'.shown = m.shown := by
        rcases step_eq_failed hstep with rfl | ⟨i, -, s, rfl, -, -⟩ <;> rfl
      rw [hraw, hstep, ← hshown]
      rfl

end Machine

/-! ## Intact states -/

/-- What holds of a machine in memory that runs the given bytecode, when the given values have been
handed over. -/
structure RawMachine.Intact (b : Bytecode) (m : RawMachine) (handed : Array Machine.Value) :
    Prop where
  /-- The pool is that of the bytecode. -/
  pool_eq : m.pool = b.constants
  /-- There is a frame, and the bottom one runs the main block from the start of the stack. -/
  bottom : ∃ ip, m.frames[0]? = some ⟨b.main, ip, 0⟩
  /-- No frame has gone past the end of its block. -/
  ip_le : ∀ f ∈ m.frames, f.ip ≤ f.code.size
  /-- Every frame but the bottom one runs a function of the pool. -/
  called : ∀ (k : Nat) f, m.frames[k + 1]? = some f →
    ∃ i : Nat, b.constants[i]? = some (.function f.code)
  /-- One byte can tell all globals apart. -/
  globals_size : m.globals.size ≤ 256
  /-- The functions on the stack, -/
  stack : ∀ v ∈ m.stack, v.FromPool b.constants
  /-- in the globals -/
  globals : ∀ v, some v ∈ m.globals → v.FromPool b.constants
  /-- and at the place of the value that was discarded last are functions of the pool. -/
  lastPopped : ∀ v, m.lastPopped = some v → v.FromPool b.constants
  /-- The value that was discarded last is the last that was handed over. -/
  lastPopped_eq : m.lastPopped = handed.back?

/-- A machine whose frames and functions are in order lies in memory in good order. -/
theorem Machine.Framed.intact {b : Bytecode} {m : Machine} (hframed : Machine.Framed b m)
    (hpool : Machine.FromPool b m) : m.toRaw.Intact b m.shown where
  pool_eq := hpool.pool_eq
  bottom := by
    obtain ⟨ip, hlast⟩ := hframed.bottom
    refine ⟨ip, ?_⟩
    rw [← hlast, ← List.head?_reverse, List.head?_eq_getElem?]
    exact m.getElem?_frames_toRaw 0
  ip_le := by
    intro f hf
    refine hframed.ip_le f (List.mem_reverse.mp ?_)
    exact List.mem_toArray.mp hf
  called := by
    intro k f hf
    obtain ⟨calls, hcodes, hcalls⟩ := hpool.codes
    -- the frames are counted from the bottom here, and from the top in the other machine
    have hmap : ((m.frame :: m.callers).reverse.map Machine.Frame.code)[k + 1]? = some f.code := by
      rw [List.getElem?_map, ← m.getElem?_frames_toRaw, hf]
      rfl
    have hreverse : (m.frame :: m.callers).reverse.map Machine.Frame.code
        = b.main :: calls.reverse := by
      rw [List.map_reverse]
      change m.codes.reverse = _
      rw [hcodes, List.reverse_append]
      rfl
    rw [hreverse, List.getElem?_cons_succ] at hmap
    exact hcalls f.code (List.mem_reverse.mp (List.mem_of_getElem? hmap))
  globals_size := hframed.globals_size
  stack := hpool.stack
  globals := by
    intro v hv
    obtain ⟨slot, hslot⟩ := Array.mem_iff_getElem?.mp hv
    refine hpool.globals slot v ?_
    unfold Machine.global?
    change m.globals[slot]? = some (some v) at hslot
    rw [hslot]
    rfl
  lastPopped := by
    intro v hv
    exact hpool.shown v (Array.mem_of_back? hv)
  lastPopped_eq := rfl

/-- **No run goes astray.** Whatever the bytecode is, and however long it runs, the machine in memory
does what the machine does; it reaches none of the places that should not be reached; and the state in
which it is then, be it still running, halted or left by an error, is intact. -/
theorem rawRun_intact (b : Bytecode) (fuel : Nat) :
    (RawMachine.start b).runAtFuel fuel #[] = ((Machine.start b).runAtFuel fuel).toRaw ∧
    (∀ place, ((RawMachine.start b).runAtFuel fuel #[]).ending ≠ .stray place) ∧
    ((RawMachine.start b).runAtFuel fuel #[]).state.Intact b
      ((RawMachine.start b).runAtFuel fuel #[]).handed := by
  have hagree : (RawMachine.start b).runAtFuel fuel #[]
      = ((Machine.start b).runAtFuel fuel).toRaw :=
    Machine.runAtFuel_toRaw fuel (Machine.start b)
  have hframed : Machine.Framed b ((Machine.start b).runAtFuel fuel).state :=
    Machine.state_runAtFuel (fun _ _ h => h.step) (fun _ _ _ h => h.failed) fuel (.start b)
  have hpool : Machine.FromPool b ((Machine.start b).runAtFuel fuel).state :=
    Machine.state_runAtFuel (fun _ _ h => h.step) (fun _ _ _ h => h.failed) fuel (.start b)
  have hintact := hframed.intact hpool
  refine ⟨hagree, ?_, ?_⟩
  · intro place
    rw [hagree]
    cases (Machine.start b).runAtFuel fuel <;> exact nofun
  · rw [hagree]
    cases hrun : (Machine.start b).runAtFuel fuel with
    | halted m | failed e m | outOfFuel m =>
      rw [hrun] at hintact
      exact hintact

end Duet
