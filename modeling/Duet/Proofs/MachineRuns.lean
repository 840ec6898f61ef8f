import Duet.Machine.Step
import Duet.Proofs.Decoding

/-!
# Runs of the stack machine

`Steps k m m'` says that the machine can take `k` steps from `m`, without stopping in between, and
is then in `m'`. The runner with fuel only repeats steps, and this file says how the two fit:

* `runAtFuel_of_steps`: the steps already taken may be left out of a run;
* `steps_of_runAtFuel_outOfFuel`: a run that has used up its fuel is made of steps;
* `steps_of_runAtFuel_failed`: a run that has failed took some steps to a state whose next step
  fails; `runAtFuel_eq_failed` and `runAtFuel_eq_halted` go the other way;
* `Steps.preserves`: what one step keeps, a run keeps.

The rest says what a step does at a boundary of a block, and what each instruction does when the
values that it takes are on the stack.
-/

namespace Duet.Machine

/-- The machine gets from one state to another in the given number of steps. -/
inductive Steps : Nat → Machine → Machine → Prop
  | refl (m : Machine) : Steps 0 m m
  | cons {k : Nat} {m m₁ m₂ : Machine} : m.step = .running m₁ → Steps k m₁ m₂ → Steps (k + 1) m m₂

namespace Steps

/-- One step by itself. -/
theorem one {m m₁ : Machine} (h : m.step = .running m₁) : Steps 1 m m₁ :=
  .cons h (.refl m₁)

/-- Steps behind steps. -/
theorem trans {j k : Nat} {m m₁ m₂ : Machine} (h : Steps j m m₁) (h' : Steps k m₁ m₂) :
    Steps (j + k) m m₂ := by
  induction h with
  | refl m => rwa [Nat.zero_add]
  | cons hs _ ih =>
    rw [Nat.succ_add_eq_add_succ]
    exact .cons hs (ih h')

/-- The first steps of many. -/
theorem first {j k : Nat} {m m₂ : Machine} (h : Steps (j + k) m m₂) : ∃ m₁, Steps j m m₁ := by
  induction j generalizing m with
  | zero => exact ⟨m, .refl m⟩
  | succ j ih =>
    rw [Nat.succ_add] at h
    cases h with
    | cons hs hrest =>
      obtain ⟨m₁, h₁⟩ := ih hrest
      exact ⟨m₁, .cons hs h₁⟩

/-- What every step keeps holds after any number of steps. -/
theorem preserves {P : Machine → Prop} (hstep : ∀ m m', P m → m.step = .running m' → P m')
    {k : Nat} {m m' : Machine} (h : Steps k m m') (hm : P m) : P m' := by
  induction h with
  | refl m => exact hm
  | cons hs _ ih => exact ih (hstep _ _ hm hs)

end Steps

/-- Steps already taken may be left out of a run. -/
theorem runAtFuel_of_steps {k : Nat} {m m' : Machine} (h : Steps k m m') (n : Nat) :
    m.runAtFuel (k + n) = m'.runAtFuel n := by
  induction h with
  | refl m => rw [Nat.zero_add]
  | cons hs _ ih =>
    rw [Nat.add_right_comm, runAtFuel, hs]
    exact ih

/-- A machine that can take as many steps as the fuel says does not end its run. -/
theorem isFinished_of_steps {n : Nat} {m m' : Machine} (h : Steps n m m') :
    (m.runAtFuel n).isFinished = false := by
  have := runAtFuel_of_steps h 0
  rw [Nat.add_zero] at this
  rw [this]
  rfl

/-- A run that has used up its fuel took as many steps. -/
theorem steps_of_runAtFuel_outOfFuel {n : Nat} {m m' : Machine}
    (h : m.runAtFuel n = .outOfFuel m') : Steps n m m' := by
  induction n generalizing m with
  | zero =>
    cases h
    exact .refl _
  | succ n ih =>
    rw [runAtFuel] at h
    cases hs : m.step with
    | running m₁ =>
      rw [hs] at h
      exact .cons hs (ih h)
    | halted m₁ =>
      rw [hs] at h
      cases h
    | failed e m₁ =>
      rw [hs] at h
      cases h

/-- A run with an error has failed. -/
theorem Run.eq_failed_of_error? {r : Run} {e : Error} (h : r.error? = some e) :
    ∃ m, r = .failed e m := by
  cases r with
  | failed e' m =>
    obtain rfl : e' = e := Option.some.inj h
    exact ⟨m, rfl⟩
  | halted m | outOfFuel m => simp [error?] at h

/-- A run that fails comes to a state whose step fails. -/
theorem steps_of_runAtFuel_failed {n : Nat} {m m' : Machine} {e : Error}
    (h : m.runAtFuel n = .failed e m') : ∃ k m₁, Steps k m m₁ ∧ m₁.step = .failed e m' := by
  induction n generalizing m with
  | zero => simp [runAtFuel] at h
  | succ n ih =>
    rw [runAtFuel] at h
    cases hs : m.step with
    | running m₁ =>
      simp only [hs] at h
      obtain ⟨k, m₂, hk, he⟩ := ih h
      exact ⟨k + 1, m₂, .cons hs hk, he⟩
    | halted m₁ => simp [hs] at h
    | failed e' m₁ =>
      simp only [hs, Run.failed.injEq] at h
      obtain ⟨rfl, rfl⟩ := h
      exact ⟨0, m, .refl m, hs⟩

/-- A run that reaches a state whose next step fails has failed there. -/
theorem runAtFuel_eq_failed {k n : Nat} {m m₁ m' : Machine} {e : Error} (h : Steps k m m₁)
    (hs : m₁.step = .failed e m') (hn : k < n) : m.runAtFuel n = .failed e m' := by
  obtain ⟨j, rfl⟩ : ∃ j, n = k + (j + 1) := ⟨n - k - 1, by omega⟩
  rw [runAtFuel_of_steps h, runAtFuel, hs]

/-- A run that reaches a state whose next step halts has halted there. -/
theorem runAtFuel_eq_halted {k n : Nat} {m m₁ m' : Machine} (h : Steps k m m₁)
    (hs : m₁.step = .halted m') (hn : k < n) : m.runAtFuel n = .halted m' := by
  obtain ⟨j, rfl⟩ : ∃ j, n = k + (j + 1) := ⟨n - k - 1, by omega⟩
  rw [runAtFuel_of_steps h, runAtFuel, hs]

/-! ## One step -/

/-- The machine with its next instruction at another offset. -/
def goto (m : Machine) (ip : Nat) : Machine :=
  { m with frame := { m.frame with ip := ip } }

/-- What one step leads to, from what carrying out its instruction led to. -/
def Result.toStep : Result → Step
  | ⟨m, none⟩ => .running m
  | ⟨m, some e⟩ => .failed e m

@[simp] theorem toStep_ok (m : Machine) : (ok m).toStep = .running m := rfl

@[simp] theorem toStep_fail (m : Machine) (e : Error) : (m.fail e).toStep = .failed e m := rfl

/-- At a boundary the machine carries out the instruction that stands there. -/
theorem step_at_boundary {m : Machine} {pre rest : List Instr} {i : Instr}
    (hcode : m.frame.code = .ofInstrs (pre ++ i :: rest)) (hip : m.frame.ip = codeSize pre) :
    m.step = ((m.goto (codeSize (pre ++ [i]))).exec i).toStep := by
  have hnext : codeSize (pre ++ [i]) = m.frame.ip + i.size := by
    rw [codeSize_append, hip]
    rfl
  rw [step, hcode, hip, Code.fetch_ofInstrs, hnext, ← hip]
  rfl

/-- At the end of its block the machine halts or, inside a function, misses a `return`. -/
theorem step_at_end {m : Machine} {is : List Instr} (hcode : m.frame.code = .ofInstrs is)
    (hip : m.frame.ip = codeSize is) :
    m.step = if m.callers.isEmpty then .halted m else .failed .missingReturn m := by
  rw [step, hcode, hip, Code.fetch_ofInstrs_end]

/-- A value is taken off the stack if there is one. -/
theorem pop_of_stack {m : Machine} {s : Array Value} {v : Value} (h : m.stack = s.push v)
    (op : Opcode) (next : Value → Machine → Result) :
    m.pop op next = next v { m with stack := s } := by
  rw [pop, h, Array.back?_push, Array.pop_push]

/-! ## Instructions whose operands are there -/

section instructions

variable {m : Machine} {s : Array Value} {v l r : Value}

/-- Arithmetic on two integers puts its result in their place. -/
theorem exec_arith_of_result {op : ArithOp} {a b : Int} {w : ArithResult}
    (h : m.stack = (s.push (.integer a)).push (.integer b)) (hres : op.result? a b = some w) :
    m.exec (.arith op) = ok { m with stack := s.push (.ofArith w) } := by
  show m.execArith op = _
  rw [execArith, pop_of_stack h, pop_of_stack rfl]
  simp only [hres]
  rfl

/-- Arithmetic without a result is a division by zero. -/
theorem exec_arith_of_none {op : ArithOp} {a b : Int}
    (h : m.stack = (s.push (.integer a)).push (.integer b)) (hres : op.result? a b = none) :
    m.exec (.arith op) = fail { m with stack := s } (.divisionByZero op.opcode) := by
  show m.execArith op = _
  rw [execArith, pop_of_stack h, pop_of_stack rfl]
  simp only [hres]

/-- An operator on anything but two integers blames one of the two. -/
theorem exec_arith_of_mismatch (op : ArithOp) (h : m.stack = (s.push l).push r)
    (hne : ∀ a b, ¬(l = .integer a ∧ r = .integer b)) :
    ∃ found, m.exec (.arith op) = fail { m with stack := s } (.typeMismatch op.opcode found) := by
  show ∃ found, m.execArith op = _
  rw [execArith, pop_of_stack h, pop_of_stack rfl]
  cases l with
  | integer a =>
    cases r with
    | integer b => exact absurd ⟨rfl, rfl⟩ (hne a b)
    | _ => exact ⟨_, rfl⟩
  | _ => exact ⟨_, rfl⟩

/-- Two values are compared and replaced by the answer. -/
theorem exec_equal (h : m.stack = (s.push l).push r) :
    m.exec .equal = ok { m with stack := s.push (.boolean (l.same r)) } := by
  calc m.exec .equal
    _ = m.pop .equal fun right m => m.pop .equal fun left m =>
          ok (m.push (.boolean (left.same right))) := rfl
    _ = ok { m with stack := s.push (.boolean (l.same r)) } := by
          rw [pop_of_stack h, pop_of_stack rfl]
          rfl

/-- Two values are compared and replaced by the opposite of the answer. -/
theorem exec_notEqual (h : m.stack = (s.push l).push r) :
    m.exec .notEqual = ok { m with stack := s.push (.boolean (!l.same r)) } := by
  calc m.exec .notEqual
    _ = m.pop .notEqual fun right m => m.pop .notEqual fun left m =>
          ok (m.push (.boolean (!left.same right))) := rfl
    _ = ok { m with stack := s.push (.boolean (!l.same r)) } := by
          rw [pop_of_stack h, pop_of_stack rfl]
          rfl

/-- A value is replaced by whether it counts as false. -/
theorem exec_not (h : m.stack = s.push v) :
    m.exec .not = ok { m with stack := s.push (.boolean v.isFalse) } := by
  calc m.exec .not
    _ = m.pop .not fun v m => ok (m.push (.boolean v.isFalse)) := rfl
    _ = ok { m with stack := s.push (.boolean v.isFalse) } := pop_of_stack h _ _

/-- An integer is replaced by its negative. -/
theorem exec_negate_integer {n : Int} (h : m.stack = s.push (.integer n)) :
    m.exec .negate = ok { m with stack := s.push (.integer (-n)) } := by
  rw [exec, pop_of_stack h]
  rfl

/-- Only integers can be negated. -/
theorem exec_negate_of_mismatch (h : m.stack = s.push v) (hne : ∀ n, v ≠ .integer n) :
    ∃ found, m.exec .negate = fail { m with stack := s } (.typeMismatch .negate found) := by
  rw [exec, pop_of_stack h]
  cases v with
  | integer n => exact absurd rfl (hne n)
  | _ => exact ⟨_, rfl⟩

/-- A constant of the pool is put on the stack. -/
theorem exec_constant {i : UInt8} {c : Constant} (h : m.pool[i.toNat]? = some c) :
    m.exec (.constant i) = ok { m with stack := m.stack.push (.ofConstant i.toNat c) } := by
  rw [exec, h]
  rfl

/-- A global that has been set is put on the stack. -/
theorem exec_getGlobal {i : UInt8} (h : m.global? i.toNat = some v) :
    m.exec (.getGlobal i) = ok { m with stack := m.stack.push v } := by
  rw [exec, h]
  rfl

/-- A value of the frame is put on the stack. -/
theorem exec_getLocal {i : UInt8} (h : m.stack[m.frame.base + i.toNat]? = some v) :
    m.exec (.getLocal i) = ok { m with stack := m.stack.push v } := by
  rw [exec, h]
  rfl

/-- The value on top is taken off and shown. -/
theorem exec_pop (h : m.stack = s.push v) :
    m.exec .pop = ok { m with stack := s, shown := m.shown.push v } := by
  calc m.exec .pop
    _ = m.pop .pop fun v m => ok { m with shown := m.shown.push v } := rfl
    _ = ok { m with stack := s, shown := m.shown.push v } := pop_of_stack h _ _

/-- The value on top is taken off and stored. -/
theorem exec_setGlobal {i : UInt8} (h : m.stack = s.push v) :
    m.exec (.setGlobal i)
      = ok { m with stack := s, globals := setSlot m.globals i.toNat v } := by
  calc m.exec (.setGlobal i)
    _ = m.pop .setGlobal fun v m => ok { m with globals := setSlot m.globals i.toNat v } := rfl
    _ = ok { m with stack := s, globals := setSlot m.globals i.toNat v } := pop_of_stack h _ _

/-- A jump inside the block goes to its target. -/
theorem exec_jump {t : UInt16} (h : t.toNat ≤ m.frame.code.size) :
    m.exec (.jump t) = ok (m.goto t.toNat) := by
  show m.jump t.toNat = _
  rw [jump, if_pos h]
  rfl

/-- A conditional jump goes on behind itself or at its target. -/
theorem exec_jumpIfNotTrue {t : UInt16} (h : m.stack = s.push v)
    (ht : t.toNat ≤ m.frame.code.size) :
    m.exec (.jumpIfNotTrue t)
      = ok (if v.isTruthy then { m with stack := s } else { m.goto t.toNat with stack := s }) := by
  rw [exec, pop_of_stack h]
  cases v.isTruthy with
  | true => rfl
  | false =>
    rw [if_neg Bool.false_ne_true, if_neg Bool.false_ne_true, jump, if_pos ht]
    rfl

/-- A call of a function enters it, with the argument left on the stack. -/
theorem exec_call {i : Nat} {code : Code} (h : m.stack = (s.push v).push (.function i code)) :
    m.exec .call = ok { m with
      stack := s.push v
      frame := ⟨code, 0, s.size⟩
      callers := m.frame :: m.callers } := by
  show m.execCall = _
  rw [execCall, pop_of_stack h]
  simp

/-- Only functions can be called. -/
theorem exec_call_of_mismatch (h : m.stack = s.push v) (hne : ∀ i code, v ≠ .function i code) :
    ∃ found, m.exec .call = fail { m with stack := s } (.notCallable found) := by
  show ∃ found, m.execCall = _
  rw [execCall, pop_of_stack h]
  cases v with
  | function i code => exact absurd rfl (hne i code)
  | _ => exact ⟨_, rfl⟩

/-- The result of a function takes the place of its argument and of all above it. -/
theorem exec_return {caller : Frame} {callers : List Frame}
    (hcallers : m.callers = caller :: callers) (h : m.stack = s.push v) :
    m.exec .return_ = ok { m with
      stack := (s.shrink m.frame.base).push v
      frame := caller
      callers := callers } := by
  show m.execReturn = _
  rw [execReturn, hcallers]
  simp only
  rw [pop_of_stack h]

end instructions

/-! ## Globals after one has been set -/

/-- The slot that is set has the new value. -/
theorem global?_setSlot_self (m : Machine) (slot : Nat) (v : Value) :
    ({ m with globals := setSlot m.globals slot v } : Machine).global? slot = some v := by
  simp only [global?, setSlot]
  split
  · rename_i h
    simp [h]
  · rename_i h
    have hsize : (m.globals ++ Array.replicate (slot - m.globals.size) none).size = slot := by
      simp only [Array.size_append, Array.size_replicate]
      omega
    rw [Array.getElem?_push, if_pos hsize.symm]
    rfl

/-- Setting a slot changes no other. -/
theorem global?_setSlot_of_ne (m : Machine) {slot i : Nat} (v : Value) (h : i ≠ slot) :
    ({ m with globals := setSlot m.globals slot v } : Machine).global? i = m.global? i := by
  simp only [global?, setSlot]
  split
  · rw [Array.getElem?_setIfInBounds_ne (Ne.symm h)]
  · rename_i hslot
    have hsize : (m.globals ++ Array.replicate (slot - m.globals.size) none).size = slot := by
      simp only [Array.size_append, Array.size_replicate]
      omega
    rw [Array.getElem?_push, if_neg (fun hi => h (hi.trans hsize)), Array.getElem?_append]
    split
    · rfl
    · rename_i hi
      rw [Array.getElem?_replicate, Array.getElem?_eq_none (Nat.le_of_not_lt hi)]
      split <;> rfl

end Duet.Machine
