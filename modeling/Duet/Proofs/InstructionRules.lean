import Duet.Proofs.MachineRuns

/-!
# What an instruction does

The machine carries out instructions by a function that may fail. Here the successful part of it is
written down as a relation, `Executes`, with one rule for each instruction (two for a conditional
jump): which values it takes from the stack, what it looks up, and what the state is afterwards.

* `exec_eq_ok_iff`: the rules are those of the machine.
* `Executes.frames`: what instructions do to the frames. `Executes.take_stack`: below the values
  that it uses, an instruction leaves the stack alone.
* `step_eq_running_iff`: a step that succeeds fetches an instruction and follows its rule.
* `shortened_of_exec`, `step_eq_failed`: what is left of a machine whose step has failed.

An invariant of runs is proved by cases on the rules. No proof after this one has to open the
functions of the machine.
-/

namespace Duet

/-- The number of values at the top of the stack that an instruction takes or, for the argument of
a call, builds on. -/
def Instr.uses : Instr → Nat
  | .arith _ | .equal | .notEqual | .call => 2
  | .not | .negate | .pop | .jumpIfNotTrue _ | .setGlobal _ | .return_ => 1
  | .constant _ | .boolean _ | .nil | .jump _ | .getGlobal _ | .getLocal _ => 0

end Duet

namespace Duet.Machine

/-- The machine `m`, which has already moved behind the instruction, carries it out and is then in
the last state. -/
inductive Executes (m : Machine) : Instr → Machine → Prop
  | constant {index : UInt8} {c : Constant} : m.pool[index.toNat]? = some c →
      Executes m (.constant index) { m with stack := m.stack.push (.ofConstant index.toNat c) }
  | boolean {b : Bool} : Executes m (.boolean b) { m with stack := m.stack.push (.boolean b) }
  | nil : Executes m .nil { m with stack := m.stack.push .nil }
  | arith {op : ArithOp} {s : Array Value} {l r : Int} {w : ArithResult} :
      m.stack = (s.push (.integer l)).push (.integer r) → op.result? l r = some w →
      Executes m (.arith op) { m with stack := s.push (.ofArith w) }
  | equal {s : Array Value} {l r : Value} : m.stack = (s.push l).push r →
      Executes m .equal { m with stack := s.push (.boolean (l.same r)) }
  | notEqual {s : Array Value} {l r : Value} : m.stack = (s.push l).push r →
      Executes m .notEqual { m with stack := s.push (.boolean (!l.same r)) }
  | not {s : Array Value} {v : Value} : m.stack = s.push v →
      Executes m .not { m with stack := s.push (.boolean v.isFalse) }
  | negate {s : Array Value} {n : Int} : m.stack = s.push (.integer n) →
      Executes m .negate { m with stack := s.push (.integer (-n)) }
  | pop {s : Array Value} {v : Value} : m.stack = s.push v →
      Executes m .pop { m with stack := s, shown := m.shown.push v }
  | passes {target : UInt16} {s : Array Value} {v : Value} : m.stack = s.push v →
      v.isTruthy = true → Executes m (.jumpIfNotTrue target) { m with stack := s }
  | branches {target : UInt16} {s : Array Value} {v : Value} : m.stack = s.push v →
      v.isTruthy = false → target.toNat ≤ m.frame.code.size →
      Executes m (.jumpIfNotTrue target) { m.goto target.toNat with stack := s }
  | jump {target : UInt16} : target.toNat ≤ m.frame.code.size →
      Executes m (.jump target) (m.goto target.toNat)
  | setGlobal {slot : UInt8} {s : Array Value} {v : Value} : m.stack = s.push v →
      Executes m (.setGlobal slot)
        { m with stack := s, globals := setSlot m.globals slot.toNat v }
  | getGlobal {slot : UInt8} {v : Value} : m.global? slot.toNat = some v →
      Executes m (.getGlobal slot) { m with stack := m.stack.push v }
  | getLocal {slot : UInt8} {v : Value} : m.stack[m.frame.base + slot.toNat]? = some v →
      Executes m (.getLocal slot) { m with stack := m.stack.push v }
  | call {s : Array Value} {v : Value} {i : Nat} {code : Code} :
      m.stack = (s.push v).push (.function i code) →
      Executes m .call
        { m with stack := s.push v, frame := ⟨code, 0, s.size⟩, callers := m.frame :: m.callers }
  | return_ {s : Array Value} {v : Value} {caller : Frame} {callers : List Frame} :
      m.callers = caller :: callers → m.stack = s.push v →
      Executes m .return_
        { m with stack := (s.shrink m.frame.base).push v, frame := caller, callers := callers }

section inversion

variable {m m' : Machine}

/-- A failure is no success. -/
theorem fail_ne_ok (e : Error) : m.fail e ≠ ok m' := by
  simp [fail, ok]

/-- A success determines its machine. -/
theorem eq_of_ok_eq (h : ok m = ok m') : m' = m := by
  cases h
  rfl

/-- A value was taken off the stack, so there was one. -/
theorem pop_eq_ok {op : Opcode} {next : Value → Machine → Result} (h : m.pop op next = ok m') :
    ∃ s v, m.stack = s.push v ∧ next v { m with stack := s } = ok m' := by
  unfold Machine.pop at h
  cases hback : m.stack.back? with
  | none =>
    rw [hback] at h
    exact absurd h (fail_ne_ok _)
  | some v =>
    obtain ⟨s, hs⟩ := Array.back?_eq_some_iff.mp hback
    rw [hback] at h
    rw [hs, Array.pop_push] at h
    exact ⟨s, v, hs, h⟩

/-- Two values were taken off the stack, so there were two. -/
theorem pop_pop_eq_ok {op : Opcode} {next : Value → Value → Machine → Result}
    (h : (m.pop op fun right m => m.pop op fun left m => next left right m) = ok m') :
    ∃ s l r, m.stack = (s.push l).push r ∧ next l r { m with stack := s } = ok m' := by
  obtain ⟨s₁, r, hs₁, h₁⟩ := pop_eq_ok h
  obtain ⟨s, l, hs, hnext⟩ := pop_eq_ok h₁
  subst hs
  exact ⟨s, l, r, hs₁, hnext⟩

/-- A jump succeeds only inside the block, and goes to its target. -/
theorem jump_eq_ok {target : Nat} (h : m.jump target = ok m') :
    target ≤ m.frame.code.size ∧ m' = m.goto target := by
  unfold Machine.jump at h
  by_cases hle : target ≤ m.frame.code.size
  · rw [if_pos hle] at h
    exact ⟨hle, eq_of_ok_eq h⟩
  · rw [if_neg hle] at h
    exact absurd h (fail_ne_ok _)

/-- Arithmetic that succeeds follows its rule. -/
theorem executes_arith {op : ArithOp} (h : m.execArith op = ok m') :
    Executes m (.arith op) m' := by
  obtain ⟨s, l, r, hs, hnext⟩ := pop_pop_eq_ok h
  cases l with
  | integer a =>
    cases r with
    | integer b =>
      cases hres : op.result? a b with
      | none =>
        simp only [hres] at hnext
        exact absurd hnext (fail_ne_ok _)
      | some w =>
        simp only [hres] at hnext
        cases eq_of_ok_eq hnext
        exact .arith hs hres
    | _ => exact absurd hnext (fail_ne_ok _)
  | _ => exact absurd hnext (fail_ne_ok _)

/-- A call that succeeds follows its rule. -/
theorem executes_call (h : m.execCall = ok m') : Executes m .call m' := by
  obtain ⟨s, f, hs, hnext⟩ := pop_eq_ok h
  cases f with
  | function i code =>
    by_cases hsize : s.size = 0
    · simp only [hsize, if_pos] at hnext
      exact absurd hnext (fail_ne_ok _)
    · simp only [hsize, if_neg, not_false_eq_true] at hnext
      obtain ⟨t, v, rfl⟩ := Array.exists_push_of_size_pos (Nat.pos_of_ne_zero hsize)
      cases eq_of_ok_eq hnext
      have hbase : (t.push v).size - 1 = t.size := by rw [Array.size_push, Nat.add_sub_cancel]
      rw [hbase]
      exact .call hs
  | _ => exact absurd hnext (fail_ne_ok _)

/-- A `return` that succeeds follows its rule. -/
theorem executes_return (h : m.execReturn = ok m') : Executes m .return_ m' := by
  unfold execReturn at h
  cases hcallers : m.callers with
  | nil =>
    simp only [hcallers] at h
    exact absurd h (fail_ne_ok _)
  | cons caller callers =>
    simp only [hcallers] at h
    obtain ⟨s, v, hs, hnext⟩ := pop_eq_ok h
    cases eq_of_ok_eq hnext
    exact .return_ hcallers hs

end inversion

/-- An instruction that is carried out without an error follows its rule. -/
theorem executes_of_exec {m m' : Machine} {i : Instr} (h : m.exec i = ok m') : Executes m i m' := by
  cases i with
  | constant index =>
    cases hc : m.pool[index.toNat]? with
    | none =>
      rw [exec, hc] at h
      exact absurd h (fail_ne_ok _)
    | some c =>
      cases eq_of_ok_eq ((exec_constant hc).symm.trans h)
      exact .constant hc
  | boolean b =>
    cases eq_of_ok_eq h
    exact .boolean
  | nil =>
    cases eq_of_ok_eq h
    exact .nil
  | arith op => exact executes_arith h
  | equal =>
    obtain ⟨s, l, r, hs, hnext⟩ := pop_pop_eq_ok h
    cases eq_of_ok_eq hnext
    exact .equal hs
  | notEqual =>
    obtain ⟨s, l, r, hs, hnext⟩ := pop_pop_eq_ok h
    cases eq_of_ok_eq hnext
    exact .notEqual hs
  | not =>
    rw [exec] at h
    obtain ⟨s, v, hs, hnext⟩ := pop_eq_ok h
    cases eq_of_ok_eq hnext
    exact .not hs
  | negate =>
    rw [exec] at h
    obtain ⟨s, v, hs, hnext⟩ := pop_eq_ok h
    cases v with
    | integer n =>
      cases eq_of_ok_eq hnext
      exact .negate hs
    | _ => exact absurd hnext (fail_ne_ok _)
  | pop =>
    rw [exec] at h
    obtain ⟨s, v, hs, hnext⟩ := pop_eq_ok h
    cases eq_of_ok_eq hnext
    exact .pop hs
  | jumpIfNotTrue target =>
    rw [exec] at h
    obtain ⟨s, v, hs, hnext⟩ := pop_eq_ok h
    cases ht : v.isTruthy with
    | true =>
      simp only [ht, if_pos] at hnext
      cases eq_of_ok_eq hnext
      exact .passes hs ht
    | false =>
      simp only [ht, Bool.false_eq_true, if_neg, not_false_eq_true] at hnext
      obtain ⟨hle, rfl⟩ := jump_eq_ok hnext
      exact .branches hs ht hle
  | jump target =>
    obtain ⟨hle, rfl⟩ := jump_eq_ok h
    exact .jump hle
  | setGlobal slot =>
    rw [exec] at h
    obtain ⟨s, v, hs, hnext⟩ := pop_eq_ok h
    cases eq_of_ok_eq hnext
    exact .setGlobal hs
  | getGlobal slot =>
    cases hv : m.global? slot.toNat with
    | none =>
      rw [exec, hv] at h
      exact absurd h (fail_ne_ok _)
    | some v =>
      cases eq_of_ok_eq ((exec_getGlobal hv).symm.trans h)
      exact .getGlobal hv
  | getLocal slot =>
    cases hv : m.stack[m.frame.base + slot.toNat]? with
    | none =>
      rw [exec, hv] at h
      exact absurd h (fail_ne_ok _)
    | some v =>
      cases eq_of_ok_eq ((exec_getLocal hv).symm.trans h)
      exact .getLocal hv
  | call => exact executes_call h
  | return_ => exact executes_return h

/-- The rules say exactly what an instruction does when it succeeds. -/
theorem exec_eq_ok_iff {m m' : Machine} {i : Instr} : m.exec i = ok m' ↔ Executes m i m' := by
  refine ⟨executes_of_exec, fun h => ?_⟩
  cases h with
  | constant hc => exact exec_constant hc
  | boolean => rfl
  | nil => rfl
  | arith hs hres => exact exec_arith_of_result hs hres
  | equal hs => exact exec_equal hs
  | notEqual hs => exact exec_notEqual hs
  | not hs => exact exec_not hs
  | negate hs => exact exec_negate_integer hs
  | pop hs => exact exec_pop hs
  | passes hs ht =>
    rw [exec, pop_of_stack hs, ht]
    rfl
  | branches hs ht hle =>
    rw [exec_jumpIfNotTrue hs hle, ht]
    rfl
  | jump hle => exact exec_jump hle
  | setGlobal hs => exact exec_setGlobal hs
  | getGlobal hv => exact exec_getGlobal hv
  | getLocal hv => exact exec_getLocal hv
  | call hs => exact exec_call hs
  | return_ hcallers hs => exact exec_return hcallers hs

/-- What an instruction does to the frames: nothing, or a jump in the one that runs, or a new one on
top of it, or its removal. -/
theorem Executes.frames {m m' : Machine} {i : Instr} (h : Executes m i m') :
    (m'.frame = m.frame ∧ m'.callers = m.callers) ∨
    (∃ t, (i = .jump t ∨ i = .jumpIfNotTrue t) ∧ m'.frame = { m.frame with ip := t.toNat } ∧
      m'.callers = m.callers) ∨
    (i = .call ∧ m'.callers = m.frame :: m.callers) ∨
    (i = .return_ ∧ m.callers = m'.frame :: m'.callers) := by
  cases h with
  | jump _ => exact .inr (.inl ⟨_, .inl rfl, rfl, rfl⟩)
  | branches _ _ _ => exact .inr (.inl ⟨_, .inr rfl, rfl, rfl⟩)
  | call _ => exact .inr (.inr (.inl ⟨rfl, rfl⟩))
  | return_ hcallers _ => exact .inr (.inr (.inr ⟨rfl, hcallers⟩))
  | _ => exact .inl ⟨rfl, rfl⟩

/-- A value on top does not change what is below. -/
theorem take_push {s : Array Value} {n : Nat} (hn : n ≤ s.size) (v : Value) :
    (s.push v).toList.take n = s.toList.take n := by
  rw [Array.toList_push]
  exact List.take_append_of_le_length hn

/-- Below the values that it uses, an instruction leaves the stack alone. Only a `return` can reach
further down, as far as the base of its frame. -/
theorem Executes.take_stack {m m' : Machine} {i : Instr} (h : Executes m i m') (hi : i ≠ .return_)
    {n : Nat} (hn : n + i.uses ≤ m.stack.size) :
    m'.stack.toList.take n = m.stack.toList.take n := by
  cases h with
  | constant _ | boolean | nil | getGlobal _ | getLocal _ => exact take_push hn _
  | @arith op s l r w hs _ | @equal s l r hs | @notEqual s l r hs =>
    simp only [hs, Array.size_push, Instr.uses] at hn ⊢
    rw [take_push (by omega), take_push (by simp; omega), take_push (by omega)]
  | @not s v hs | @negate s v hs =>
    simp only [hs, Array.size_push, Instr.uses] at hn ⊢
    rw [take_push (by omega), take_push (by omega)]
  | @pop s v hs | @passes target s v hs _ | @branches target s v hs _ _ | @setGlobal slot s v hs =>
    simp only [hs, Array.size_push, Instr.uses] at hn ⊢
    rw [take_push (by omega)]
  | jump _ => rfl
  | @call s v j code hs =>
    simp only [hs, Array.size_push, Instr.uses] at hn ⊢
    rw [take_push (s := s.push v) (by simp; omega)]
  | return_ _ _ => exact absurd rfl hi

/-- A step succeeds exactly if there is an instruction at the offset of the frame that runs, and if
it can be carried out behind it. -/
theorem step_eq_running_iff {m m' : Machine} :
    m.step = .running m' ↔ ∃ i, m.frame.code.fetch m.frame.ip = .instr i ∧
      Executes (m.goto (m.frame.ip + i.size)) i m' := by
  unfold step
  cases hfetch : m.frame.code.fetch m.frame.ip with
  | finished => by_cases hc : m.callers.isEmpty = true <;> simp [hc]
  | unknown byte => simp
  | truncated op => simp
  | instr i =>
    simp only [Code.Fetch.instr.injEq, exists_eq_left', ← exec_eq_ok_iff]
    show ((m.goto (m.frame.ip + i.size)).exec i).toStep = .running m' ↔ _
    rcases (m.goto (m.frame.ip + i.size)).exec i with ⟨m₁, _ | e⟩
    · simp [Result.toStep, ok]
    · simp [Result.toStep, ok]

/-! ## Instructions that fail -/

/-- What is left of a machine `m` whose instruction has failed: at most `k` values are gone from the
top of the stack, and nothing else has changed. -/
def Shortened (m : Machine) (k : Nat) (m' : Machine) : Prop :=
  ∃ s, m' = { m with stack := s } ∧ s.toList <+: m.stack.toList ∧ m.stack.size ≤ s.size + k

section failure

variable {m m' : Machine} {e e' : Error} {k : Nat}

/-- A success is no failure. -/
theorem ok_ne_fail : ok m ≠ m'.fail e := by
  simp [fail, ok]

/-- A failure that takes nothing from the stack leaves the machine as it was. -/
theorem Shortened.of_fail (h : m.fail e = m'.fail e') : Shortened m k m' := by
  obtain rfl : m = m' := congrArg Result.state h
  exact ⟨m.stack, rfl, List.prefix_rfl, Nat.le_add_right _ _⟩

/-- One value more is gone if an instruction fails that has taken one. -/
theorem Shortened.of_pop {op : Opcode} {next : Value → Machine → Result}
    (h : m.pop op next = m'.fail e)
    (hnext : ∀ v s, next v { m with stack := s } = m'.fail e →
      Shortened { m with stack := s } k m') : Shortened m (k + 1) m' := by
  unfold Machine.pop at h
  cases hback : m.stack.back? with
  | none =>
    rw [hback] at h
    exact .of_fail h
  | some v =>
    obtain ⟨t, ht⟩ := Array.back?_eq_some_iff.mp hback
    rw [hback] at h
    obtain ⟨s, rfl, hprefix, hsize⟩ := hnext v _ h
    simp only [ht, Array.pop_push] at hprefix hsize
    refine ⟨s, rfl, ?_, ?_⟩
    · rw [ht, Array.toList_push]
      exact hprefix.trans (List.prefix_append _ _)
    · rw [ht, Array.size_push]
      omega

/-- A jump that fails takes nothing from the stack. -/
theorem Shortened.of_jump {target : Nat} (h : m.jump target = m'.fail e) : Shortened m k m' := by
  unfold Machine.jump at h
  by_cases hle : target ≤ m.frame.code.size
  · rw [if_pos hle] at h
    exact absurd h ok_ne_fail
  · rw [if_neg hle] at h
    exact .of_fail h

/-- Arithmetic that fails has taken at most its two operands. -/
theorem Shortened.of_arith {op : ArithOp} (h : m.execArith op = m'.fail e) :
    Shortened m 2 m' := by
  refine .of_pop h fun right s h => .of_pop h fun left s h => ?_
  cases left with
  | integer a =>
    cases right with
    | integer b =>
      cases hres : op.result? a b with
      | none =>
        simp only [hres] at h
        exact .of_fail h
      | some w =>
        simp only [hres] at h
        exact absurd h ok_ne_fail
    | _ => exact .of_fail h
  | _ => exact .of_fail h

/-- A call fails without a callee, on a callee that is no function, or without an argument. -/
theorem Shortened.of_call (h : m.execCall = m'.fail e) : Shortened m 2 m' := by
  refine .of_pop h fun callee s h => ?_
  cases callee with
  | function j code =>
    by_cases hsize : s.size = 0
    · simp only [hsize, if_pos] at h
      exact .of_fail h
    · simp only [hsize, if_neg, not_false_eq_true] at h
      exact absurd h ok_ne_fail
  | _ => exact .of_fail h

/-- A `return` that fails has taken at most its value. -/
theorem Shortened.of_return (h : m.execReturn = m'.fail e) : Shortened m 1 m' := by
  unfold execReturn at h
  cases hcallers : m.callers with
  | nil =>
    simp only [hcallers] at h
    exact .of_fail h
  | cons caller callers =>
    simp only [hcallers] at h
    exact .of_pop h fun _ _ h => absurd h ok_ne_fail

end failure

/-- An instruction that fails has only taken values off the stack, and only such as it uses. -/
theorem shortened_of_exec {m m' : Machine} {i : Instr} {e : Error} (h : m.exec i = m'.fail e) :
    Shortened m i.uses m' := by
  cases i with
  | constant index =>
    rw [exec] at h
    split at h
    · exact absurd h ok_ne_fail
    · exact .of_fail h
  | boolean b => exact absurd h ok_ne_fail
  | nil => exact absurd h ok_ne_fail
  | arith op => exact .of_arith h
  | equal =>
    rw [exec] at h
    exact .of_pop h fun _ _ h => .of_pop h fun _ _ h => absurd h ok_ne_fail
  | notEqual =>
    rw [exec] at h
    exact .of_pop h fun _ _ h => .of_pop h fun _ _ h => absurd h ok_ne_fail
  | not =>
    rw [exec] at h
    exact .of_pop h fun _ _ h => absurd h ok_ne_fail
  | negate =>
    rw [exec] at h
    refine .of_pop h fun v s h => ?_
    cases v with
    | integer n => exact absurd h ok_ne_fail
    | _ => exact .of_fail h
  | pop =>
    rw [exec] at h
    exact .of_pop h fun _ _ h => absurd h ok_ne_fail
  | jumpIfNotTrue target =>
    rw [exec] at h
    refine .of_pop h fun v s h => ?_
    split at h
    · exact absurd h ok_ne_fail
    · exact .of_jump h
  | jump target => exact .of_jump h
  | setGlobal slot =>
    rw [exec] at h
    exact .of_pop h fun _ _ h => absurd h ok_ne_fail
  | getGlobal slot =>
    rw [exec] at h
    split at h
    · exact absurd h ok_ne_fail
    · exact .of_fail h
  | getLocal slot =>
    rw [exec] at h
    split at h
    · exact absurd h ok_ne_fail
    · exact .of_fail h
  | call => exact .of_call h
  | return_ => exact .of_return h

/-- A step fails before its instruction is carried out, and then nothing has changed, or while it is
carried out. -/
theorem step_eq_failed {m m' : Machine} {e : Error} (h : m.step = .failed e m') :
    m' = m ∨ ∃ i, m.frame.code.fetch m.frame.ip = .instr i ∧
      Shortened (m.goto (m.frame.ip + i.size)) i.uses m' := by
  unfold step at h
  cases hfetch : m.frame.code.fetch m.frame.ip with
  | finished =>
    by_cases hc : m.callers.isEmpty = true
    · simp [hfetch, hc] at h
    · simp [hfetch, hc] at h
      exact .inl h.2.symm
  | unknown byte =>
    simp only [hfetch, Step.failed.injEq] at h
    exact .inl h.2.symm
  | truncated op =>
    simp only [hfetch, Step.failed.injEq] at h
    exact .inl h.2.symm
  | instr i =>
    refine .inr ⟨i, rfl, shortened_of_exec (e := e) ?_⟩
    simp only [hfetch] at h
    change ((m.goto (m.frame.ip + i.size)).exec i).toStep = .failed e m' at h
    rcases hexec : (m.goto (m.frame.ip + i.size)).exec i with ⟨m₁, _ | e₁⟩
    · rw [hexec] at h
      cases h
    · rw [hexec] at h
      cases h
      rfl

end Duet.Machine
