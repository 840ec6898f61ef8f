import Duet.Proofs.MachineRuns
import Duet.Proofs.StackHeights

/-!
# Accepted programs never break the machine

Of the errors of the machine, three are the fault of the program that runs: an operand of the
wrong type, a division by zero, and a call of a value that is no function. All others are the
fault of its code: a stack that is too short, a global that has not been set, an offset that is
no boundary, a constant or a local that is not there, a missing or misplaced `return`. Code that
was compiled never has any of these faults, however long it runs.

* `Frames`: the frame that runs and all that wait stand at boundaries of balanced code, and the
  stack is as high as the code before these boundaries says.
* `Safe`: the frames are of this form, and all functions that the machine has at hand read only
  globals that have been set. For one moment this fails: between the loading of a function that
  calls itself and the setting of its global.
* `Fetched`: an instruction has been fetched, and the frame may go on behind it and at the target
  of a jump. One lemma for each kind of instruction says that it keeps the machine safe
  (`Fetched.exec`).
* `Safe.step`: a step of a safe machine leads to a safe machine, or halts, or fails ordinarily.
* `error_of_compile`: the only errors that an accepted program can end with are the
  three ordinary ones.
-/

namespace Duet

/-- The number of values that an operator or a load takes from the stack. -/
def Instr.operands : Instr → Nat
  | .arith _ | .equal | .notEqual => 2
  | .not | .negate => 1
  | _ => 0

/-- The instructions that only put a value on the stack, computed from at most two others. -/
def Instr.isPlain : Instr → Bool
  | .boolean _ | .nil | .arith _ | .equal | .notEqual | .not | .negate | .getGlobal _
  | .getLocal _ => true
  | _ => false

/-- A plain instruction leaves one value in the place of its operands. -/
theorem Instr.heightAfter_of_isPlain {i : Instr} {h k : Nat} (hi : i.isPlain = true)
    (hk : k + i.operands = h + 1) : i.heightAfter h = k := by
  cases i <;> simp_all [isPlain, operands, heightAfter] <;> omega

namespace Machine

/-! ## Ordinary errors -/

/-- An error that is the fault of the program and not of its code. -/
def Error.IsOrdinary (e : Error) : Prop :=
  (∃ op found, e = .typeMismatch op found) ∨ (∃ op, e = .divisionByZero op) ∨
    ∃ found, e = .notCallable found

/-- An instruction failed through the fault of the program. -/
def Result.FailsOrdinarily (r : Result) : Prop :=
  ∃ (m : Machine) (e : Error), r = m.fail e ∧ e.IsOrdinary

/-- A step keeps a property if the machine has it afterwards, unless it halts or fails
ordinarily. -/
def Step.Keeps (P : Machine → Prop) : Step → Prop
  | .running m => P m
  | .halted _ => True
  | .failed e _ => e.IsOrdinary

/-- An ordinary failure keeps every property. -/
theorem Result.FailsOrdinarily.keeps {r : Result} {P : Machine → Prop} (h : r.FailsOrdinarily) :
    r.toStep.Keeps P := by
  obtain ⟨m, e, rfl, he⟩ := h
  exact he

/-! ## Plain instructions -/

section plain

variable {P : Value → Prop} {m : Machine} {s : Array Value}

/-- All values have a property if the one on top has it and those below do. -/
theorem forall_mem_push {v : Value} (hs : ∀ w ∈ s, P w) (hv : P v) : ∀ w ∈ s.push v, P w := by
  intro w hw
  rcases Array.mem_push.mp hw with hw | rfl
  · exact hs w hw
  · exact hv

/-- A stack that is not empty has a topmost value. -/
theorem exists_push_of_pos (hpos : 0 < s.size) (hs : ∀ w ∈ s, P w) :
    ∃ (t : Array Value) (v : Value), s = t.push v ∧ (∀ w ∈ t, P w) ∧ P v := by
  obtain ⟨t, v, rfl⟩ := Array.exists_push_of_size_pos hpos
  refine ⟨t, v, rfl, fun w hw => hs w ?_, hs v ?_⟩
  · exact Array.mem_push.mpr (.inl hw)
  · exact Array.mem_push.mpr (.inr rfl)

/-- A stack with two values or more has two topmost ones. -/
theorem exists_push_push_of_two_le (hsize : 2 ≤ s.size) (hs : ∀ w ∈ s, P w) :
    ∃ (t : Array Value) (l r : Value), s = (t.push l).push r ∧ (∀ w ∈ t, P w) ∧ P l ∧ P r := by
  obtain ⟨t', r, rfl, ht', hr⟩ := exists_push_of_pos (Nat.lt_of_lt_of_le Nat.two_pos hsize) hs
  rw [Array.size_push] at hsize
  obtain ⟨t, l, rfl, ht, hl⟩ := exists_push_of_pos (Nat.le_of_succ_le_succ hsize) ht'
  exact ⟨t, l, r, rfl, ht, hl, hr⟩

/-- What a plain instruction does: the stack changes by its operands and its result, and nothing
else does, or there is an ordinary error. Here `P` is any property of values that holds of all
that are not functions. -/
theorem exec_plain {i : Instr} (hi : i.isPlain = true) (hsize : i.operands ≤ m.stack.size)
    (hP : ∀ v : Value, (∀ j code, v ≠ .function j code) → P v) (hstack : ∀ v ∈ m.stack, P v)
    (hglobal : ∀ n, i = .getGlobal n → ∃ v, m.global? n.toNat = some v ∧ P v)
    (hlocal : ∀ n, i = .getLocal n → m.frame.base + n.toNat < m.stack.size) :
    (∃ s, m.exec i = ok { m with stack := s } ∧ s.size + i.operands = m.stack.size + 1 ∧
      ∀ v ∈ s, P v) ∨ (m.exec i).FailsOrdinarily := by
  have hbool (b : Bool) : P (.boolean b) := hP _ nofun
  cases i with
  | boolean b => exact .inl ⟨_, rfl, Array.size_push _, forall_mem_push hstack (hbool b)⟩
  | nil => exact .inl ⟨_, rfl, Array.size_push _, forall_mem_push hstack (hP _ nofun)⟩
  | arith op =>
    obtain ⟨s, l, r, hs, hPs, -, -⟩ := exists_push_push_of_two_le hsize hstack
    by_cases hint : ∃ a b, l = .integer a ∧ r = .integer b
    · obtain ⟨a, b, rfl, rfl⟩ := hint
      cases hres : op.result? a b with
      | some w =>
        refine .inl ⟨_, exec_arith_of_result hs hres, ?_, forall_mem_push hPs (hP _ ?_)⟩
        · simp [hs, Instr.operands]
        · cases w <;> exact nofun
      | none => exact .inr ⟨_, _, exec_arith_of_none hs hres, .inr (.inl ⟨_, rfl⟩)⟩
    · obtain ⟨found, herr⟩ :=
        exec_arith_of_mismatch op hs fun a b hab => hint ⟨a, b, hab⟩
      exact .inr ⟨_, _, herr, .inl ⟨_, _, rfl⟩⟩
  | equal =>
    obtain ⟨s, l, r, hs, hPs, -, -⟩ := exists_push_push_of_two_le hsize hstack
    refine .inl ⟨_, exec_equal hs, ?_, forall_mem_push hPs (hbool _)⟩
    simp [hs, Instr.operands]
  | notEqual =>
    obtain ⟨s, l, r, hs, hPs, -, -⟩ := exists_push_push_of_two_le hsize hstack
    refine .inl ⟨_, exec_notEqual hs, ?_, forall_mem_push hPs (hbool _)⟩
    simp [hs, Instr.operands]
  | not =>
    obtain ⟨s, v, hs, hPs, -⟩ := exists_push_of_pos hsize hstack
    refine .inl ⟨_, exec_not hs, ?_, forall_mem_push hPs (hbool _)⟩
    simp [hs, Instr.operands]
  | negate =>
    obtain ⟨s, v, hs, hPs, -⟩ := exists_push_of_pos hsize hstack
    by_cases hint : ∃ n, v = .integer n
    · obtain ⟨n, rfl⟩ := hint
      refine .inl ⟨_, exec_negate_integer hs, ?_, forall_mem_push hPs (hP _ nofun)⟩
      simp [hs, Instr.operands]
    · obtain ⟨found, herr⟩ := exec_negate_of_mismatch hs fun n hn => hint ⟨n, hn⟩
      exact .inr ⟨_, _, herr, .inl ⟨_, _, rfl⟩⟩
  | getGlobal n =>
    obtain ⟨v, hv, hPv⟩ := hglobal n rfl
    exact .inl ⟨_, exec_getGlobal hv, Array.size_push _, forall_mem_push hstack hPv⟩
  | getLocal n =>
    have hlt := hlocal n rfl
    exact .inl ⟨_, exec_getLocal (Array.getElem?_eq_getElem hlt), Array.size_push _,
      forall_mem_push hstack (hstack _ (Array.getElem_mem hlt))⟩
  | _ => simp [Instr.isPlain] at hi

end plain

/-! ## Safe machines -/

/-- The frame that runs and those that wait stand at boundaries. `n` globals have been set, `size`
is the height of the stack, and all functions at hand read at most `limit` globals: `n`, or one
more if the next instruction is the one that sets it. -/
inductive Frames (K : Array Constant) (main : List Instr) (n : Nat) :
    (limit : Nat) → Frame → List Frame → (size : Nat) → Prop
  | main {limit pre rest} : main = pre ++ rest → setCount pre = n →
      (limit = n ∨ limit = n + 1 ∧ ∃ s r, rest = .setGlobal s :: r) →
      Frames K main n limit ⟨.ofInstrs main, codeSize pre, 0⟩ [] (height 0 pre)
  | function {body pre rest base caller callers} :
      Balanced K n 1 0 1 body 2 → body = pre ++ rest →
      Frames K main n n caller callers (base + 1) →
      Frames K main n n ⟨.ofInstrs (body ++ [.return_]), codeSize pre, base⟩ (caller :: callers)
        (base + height 1 pre)

/-- A function begins with its argument on the stack. -/
theorem Frames.enter {K : Array Constant} {main body : List Instr} {n base : Nat} {caller : Frame}
    {callers : List Frame} (hbal : Balanced K n 1 0 1 body 2)
    (hwait : Frames K main n n caller callers (base + 1)) :
    Frames K main n n ⟨.ofInstrs (body ++ [.return_]), 0, base⟩ (caller :: callers) (base + 1) :=
  @Frames.function K main n body [] body base caller callers hbal rfl hwait

/-- What holds of the values in a machine when `n` globals have been set. -/
structure ValuesSafe (K : Array Constant) (n limit : Nat) (m : Machine) : Prop where
  pool_eq : m.pool = K
  isSet : ∀ i < n, ∃ v, m.global? i = some v
  stack : ∀ v ∈ m.stack, v.Callable K limit
  globals : ∀ i v, m.global? i = some v → v.Callable K limit

/-- A machine that compiled code cannot break; see the head of this file. -/
def Safe (K : Array Constant) (main : List Instr) (m : Machine) : Prop :=
  ∃ n limit, ValuesSafe K n limit m ∧ Frames K main n limit m.frame m.callers m.stack.size

section safe

variable {K : Array Constant} {main : List Instr} {n limit : Nat} {m : Machine}

/-- A stack of values that can be called keeps the values of a machine safe, whatever frames it
has. -/
theorem ValuesSafe.withStack (hv : ValuesSafe K n limit m) {s : Array Value} {limit' : Nat}
    (hs : ∀ v ∈ s, v.Callable K limit') (hle : limit ≤ limit') (frame : Frame)
    (callers : List Frame) (shown : Array Value) :
    ValuesSafe K n limit' ⟨m.pool, s, m.globals, frame, callers, shown⟩ where
  pool_eq := hv.pool_eq
  isSet := hv.isSet
  stack := hs
  globals i v h := (hv.globals i v h).mono hle

/-- A constant is a function that can be called at once, except in the main block in front of the
setting of a global. -/
theorem SafeAt.constant_cases {body pre rest : List Instr} {slots locals : Nat} {i : Instr}
    (h : i.SafeAt K slots locals body pre rest) :
    (∀ j, i = .constant j → ∃ v, K[j.toNat]? = some v ∧
      (Value.ofConstant j.toNat v).Callable K (slots + setCount pre)) ∨
    locals = 0 ∧ ∃ j v, i = .constant j ∧ K[j.toNat]? = some v ∧
      (Value.ofConstant j.toNat v).Callable K (slots + setCount pre + 1) ∧
      ∃ s r, rest = .setGlobal s :: r := by
  cases i with
  | constant j =>
    obtain ⟨v, limit, hk, hcall, rfl | ⟨rfl, hlocals, hrest⟩⟩ := h
    · refine .inl ?_
      rintro _ ⟨⟩
      exact ⟨v, hk, hcall⟩
    · exact .inr ⟨hlocals, j, v, rfl, hk, hcall, hrest⟩
  | _ => exact .inl nofun

/-- The machine has fetched the instruction `i` behind `pre` in `body` and is about to carry it out.
The frame may go on behind `i` and at every target of a jump from here; by that the main block and
functions are treated alike. -/
structure Fetched (K : Array Constant) (main : List Instr) (n locals : Nat) (body pre : List Instr)
    (i : Instr) (m : Machine) : Prop where
  values : ValuesSafe K n n m
  size : m.stack.size = m.frame.base + height locals pre
  next : Frames K main n n m.frame m.callers (m.frame.base + i.heightAfter (height locals pre))
  target : ∀ t h, Target locals body pre t h → t.toNat ≤ m.frame.code.size ∧
    Frames K main n n ⟨m.frame.code, t.toNat, m.frame.base⟩ m.callers (m.frame.base + h)

/-- It is enough that the frame may go on at every boundary at which as many globals are set. -/
theorem ValuesSafe.fetched {body pre rest : List Instr} {locals : Nat} {i : Instr}
    (hv : ValuesSafe K n n m) (tail : List Instr)
    (hcode : m.frame.code = .ofInstrs (body ++ tail))
    (hip : m.frame.ip = codeSize (pre ++ [i])) (hbody : body = pre ++ i :: rest)
    (hsize : m.stack.size = m.frame.base + height locals pre) (hset : i.setsGlobal = false)
    (hmove : ∀ pre' rest', body = pre' ++ rest' → setCount pre' = setCount pre →
      Frames K main n n ⟨m.frame.code, codeSize pre', m.frame.base⟩ m.callers
        (m.frame.base + height locals pre')) :
    Fetched K main n locals body pre i m where
  values := hv
  size := hsize
  next := by
    have := hmove (pre ++ [i]) rest (by simpa using hbody) (by simp [hset])
    rw [← hip, height_append] at this
    exact this
  target := by
    rintro t h ⟨pre', rest', hsplit, ht, -, rfl, hcount⟩
    refine ⟨?_, ht ▸ hmove pre' rest' hsplit hcount⟩
    rw [← ht, hcode, Code.size_ofInstrs, hsplit, codeSize_append, codeSize_append]
    omega

section fetched

variable {body pre rest : List Instr} {slots locals : Nat}

/-- An instruction that works on the top of the stack only keeps a machine safe. -/
theorem Fetched.exec_isPlain {i : Instr} (h : Fetched K main n locals body pre i m)
    (hi : i.isPlain = true) (hle : locals ≤ height locals pre)
    (hops : i.operands ≤ height locals pre)
    (hglobal : ∀ j, i = .getGlobal j → j.toNat < n)
    (hlocal : ∀ j, i = .getLocal j → j.toNat < locals) :
    (m.exec i).toStep.Keeps (Safe K main) := by
  obtain ⟨hv, hsize, hnext, -⟩ := h
  have hkeep := exec_plain (P := Value.Callable K n) hi (by omega)
    (fun v hv => by cases v <;> first | trivial | exact absurd rfl (hv _ _)) hv.stack
    (fun j hj => by
      obtain ⟨v, hg⟩ := hv.isSet j.toNat (hglobal j hj)
      exact ⟨v, hg, hv.globals _ v hg⟩)
    (fun j hj => by have := hlocal j hj; omega)
  rcases hkeep with ⟨s, hexec, hs, hcall⟩ | herr
  · rw [hexec]
    refine ⟨n, n, hv.withStack hcall (Nat.le_refl n) _ _ _, ?_⟩
    have hh : i.heightAfter (height locals pre) = s.size - m.frame.base :=
      Instr.heightAfter_of_isPlain hi (by omega)
    rwa [hh, Nat.add_sub_cancel' (by omega)] at hnext
  · exact herr.keeps

/-- A constant that can be called at once keeps a machine safe. -/
theorem Fetched.exec_constant {j : UInt8} {v : Constant}
    (h : Fetched K main n locals body pre (.constant j) m) (hk : K[j.toNat]? = some v)
    (hcall : (Value.ofConstant j.toNat v).Callable K n) :
    (m.exec (.constant j)).toStep.Keeps (Safe K main) := by
  obtain ⟨hv, hsize, hnext, -⟩ := h
  rw [← hv.pool_eq] at hk
  rw [Machine.exec_constant hk]
  refine ⟨n, n, hv.withStack (forall_mem_push hv.stack hcall) (Nat.le_refl n) _ _ _, ?_⟩
  rw [Array.size_push, hsize]
  exact hnext

/-- A jump goes on at its target, at the height the stack has. -/
theorem Fetched.exec_jump {t : UInt16} (h : Fetched K main n locals body pre (.jump t) m)
    (ht : Target locals body pre t (height locals pre)) :
    (m.exec (.jump t)).toStep.Keeps (Safe K main) := by
  obtain ⟨hbound, hframes⟩ := h.target t _ ht
  rw [Machine.exec_jump hbound]
  refine ⟨n, n, h.values.withStack h.values.stack (Nat.le_refl n) _ _ _, ?_⟩
  rwa [← h.size] at hframes

/-- A conditional jump takes its condition off the stack and goes on, behind itself or at its
target. -/
theorem Fetched.exec_jumpIfNotTrue {t : UInt16}
    (h : Fetched K main n locals body pre (.jumpIfNotTrue t) m) (hpos : 0 < height locals pre)
    (ht : Target locals body pre t (height locals pre - 1)) :
    (m.exec (.jumpIfNotTrue t)).toStep.Keeps (Safe K main) := by
  obtain ⟨hv, hsize, hnext, htarget⟩ := h
  obtain ⟨hbound, hframes⟩ := htarget t _ ht
  obtain ⟨s, v, hs, hcall, -⟩ := exists_push_of_pos (by omega) hv.stack
  rw [hs, Array.size_push] at hsize
  have hsize' : s.size = m.frame.base + (height locals pre - 1) := by omega
  rw [Machine.exec_jumpIfNotTrue hs hbound]
  cases v.isTruthy with
  | true => exact ⟨n, n, hv.withStack hcall (Nat.le_refl n) _ _ _, hsize' ▸ hnext⟩
  | false => exact ⟨n, n, hv.withStack hcall (Nat.le_refl n) _ _ _, hsize' ▸ hframes⟩

/-- A call enters a function with its argument on the stack, or fails because there is no
function to call. -/
theorem Fetched.exec_call (h : Fetched K main n locals body pre .call m)
    (htwo : 2 ≤ height locals pre) : (m.exec .call).toStep.Keeps (Safe K main) := by
  obtain ⟨hv, hsize, hnext, -⟩ := h
  obtain ⟨s, a, f, hs, hcall, ha, hf⟩ := exists_push_push_of_two_le (by omega) hv.stack
  rw [hs, Array.size_push, Array.size_push] at hsize
  by_cases hfun : ∃ j code, f = .function j code
  · obtain ⟨j, code, rfl⟩ := hfun
    obtain ⟨fbody, rfl, hbal⟩ := hf
    rw [Machine.exec_call hs]
    refine ⟨n, n, hv.withStack (forall_mem_push hcall ha) (Nat.le_refl n) _ _ _, ?_⟩
    rw [Array.size_push]
    refine .enter hbal ?_
    have hh : m.frame.base + Instr.call.heightAfter (height locals pre) = s.size + 1 := by
      simp only [Instr.heightAfter]
      omega
    exact hh ▸ hnext
  · obtain ⟨found, herr⟩ := exec_call_of_mismatch hs fun j code hj => hfun ⟨j, code, hj⟩
    exact Result.FailsOrdinarily.keeps ⟨_, _, herr, .inr (.inr ⟨found, rfl⟩)⟩

/-- A value taken off the stack, the only one there, keeps a machine safe. -/
theorem Fetched.exec_pop (h : Fetched K main n locals body pre .pop m)
    (hone : height locals pre = 1) : (m.exec .pop).toStep.Keeps (Safe K main) := by
  obtain ⟨hv, hsize, hnext, -⟩ := h
  obtain ⟨s, v, hs, hcall, -⟩ := exists_push_of_pos (by omega) hv.stack
  rw [hone] at hnext
  rw [hs, Array.size_push, hone] at hsize
  have hsize' : s.size = m.frame.base + Instr.pop.heightAfter 1 := Nat.succ.inj hsize
  rw [Machine.exec_pop hs]
  exact ⟨n, n, hv.withStack hcall (Nat.le_refl n) _ _ _, hsize' ▸ hnext⟩

/-- An instruction in the middle of a block, other than one that sets a global, keeps a machine
safe. -/
theorem Fetched.exec {i : Instr} (h : Fetched K main n locals body pre i m)
    (hle : locals ≤ height locals pre) (hn : n = slots + setCount pre)
    (hsafe : i.SafeAt K slots locals body pre rest) (hset : i.setsGlobal = false)
    (hconst : ∀ j, i = .constant j → ∃ v, K[j.toNat]? = some v ∧
      (Value.ofConstant j.toNat v).Callable K n) :
    (m.exec i).toStep.Keeps (Safe K main) := by
  cases i with
  | boolean b => exact h.exec_isPlain rfl hle (Nat.zero_le _) nofun nofun
  | nil => exact h.exec_isPlain rfl hle (Nat.zero_le _) nofun nofun
  | arith op => exact h.exec_isPlain rfl hle (Nat.le_of_add_left_le hsafe) nofun nofun
  | equal => exact h.exec_isPlain rfl hle (Nat.le_of_add_left_le hsafe) nofun nofun
  | notEqual => exact h.exec_isPlain rfl hle (Nat.le_of_add_left_le hsafe) nofun nofun
  | not => exact h.exec_isPlain rfl hle (Nat.le_of_add_left_le hsafe) nofun nofun
  | negate => exact h.exec_isPlain rfl hle (Nat.le_of_add_left_le hsafe) nofun nofun
  | getGlobal j =>
    refine h.exec_isPlain rfl hle (Nat.zero_le _) ?_ nofun
    rintro _ ⟨⟩
    exact hn ▸ hsafe
  | getLocal j =>
    refine h.exec_isPlain rfl hle (Nat.zero_le _) nofun ?_
    rintro _ ⟨⟩
    exact hsafe
  | constant j =>
    obtain ⟨v, hk, hcall⟩ := hconst j rfl
    exact h.exec_constant hk hcall
  | jump t => exact h.exec_jump hsafe.2
  | jumpIfNotTrue t => exact h.exec_jumpIfNotTrue (Nat.le_of_add_left_le hsafe.1) hsafe.2
  | call => exact h.exec_call (Nat.le_of_add_left_le hsafe)
  | pop => exact h.exec_pop hsafe.2
  | setGlobal j => simp [Instr.setsGlobal] at hset
  | return_ => exact hsafe.elim

end fetched

/-- Setting the next global keeps a machine safe: from then on functions may read it. -/
theorem ValuesSafe.setGlobal (hv : ValuesSafe K n limit m) (hlimit : limit ≤ n + 1)
    {s : Array Value} {v : Value} (hs : m.stack = s.push v) (frame : Frame) :
    ValuesSafe K (n + 1) (n + 1)
      { m with stack := s, globals := setSlot m.globals n v, frame := frame } := by
  have hmem (w : Value) (hw : w ∈ m.stack) : w.Callable K (n + 1) := (hv.stack w hw).mono hlimit
  rw [hs] at hmem
  refine ⟨hv.pool_eq, fun i hi => ?_, fun w hw => hmem w (Array.mem_push.mpr (.inl hw)), ?_⟩
  · by_cases hin : i = n
    · subst hin
      exact ⟨v, global?_setSlot_self m i v⟩
    · obtain ⟨w, hw⟩ := hv.isSet i (by omega)
      exact ⟨w, (global?_setSlot_of_ne m v hin).trans hw⟩
  · intro i w hw
    by_cases hin : i = n
    · subst hin
      obtain rfl : v = w := Option.some.inj ((global?_setSlot_self m i v).symm.trans hw)
      exact hmem v (Array.mem_push.mpr (.inr rfl))
    · exact (hv.globals i w ((global?_setSlot_of_ne m v hin).symm.trans hw)).mono hlimit

/-- An instruction of the main block keeps a machine safe. -/
theorem ValuesSafe.exec_main {pre rest : List Instr} {i : Instr} (hv : ValuesSafe K n limit m)
    (hsplit : main = pre ++ i :: rest) (hsafe : i.SafeAt K 0 0 main pre rest)
    (hframe : m.frame = ⟨.ofInstrs main, codeSize (pre ++ [i]), 0⟩) (hcallers : m.callers = [])
    (hsize : m.stack.size = height 0 pre) (hn : setCount pre = n)
    (hlimit : limit = n ∨ limit = n + 1 ∧ ∃ s r, i :: rest = .setGlobal s :: r) :
    (m.exec i).toStep.Keeps (Safe K main) := by
  have hnext : main = (pre ++ [i]) ++ rest := by simpa using hsplit
  by_cases hset : ∃ slot, i = .setGlobal slot
  · obtain ⟨slot, rfl⟩ := hset
    obtain ⟨-, hone, hslot⟩ := hsafe
    rw [Nat.zero_add, hn] at hslot
    obtain ⟨s, v, hs, -, -⟩ := exists_push_of_pos (by omega) hv.stack
    rw [hs, Array.size_push, hone] at hsize
    rw [exec_setGlobal hs, hslot]
    refine ⟨n + 1, n + 1, hv.setGlobal (by omega) hs _, ?_⟩
    have hframes : Frames K main (n + 1) (n + 1) m.frame m.callers
        (height 0 (pre ++ [.setGlobal slot])) := by
      rw [hframe, hcallers]
      exact .main hnext (by simp [hn, Instr.setsGlobal]) (.inl rfl)
    rw [height_append, hone] at hframes
    exact Nat.succ.inj hsize ▸ hframes
  · have hnoset : i.setsGlobal = false := by
      cases i <;> first | rfl | exact absurd ⟨_, rfl⟩ hset
    obtain rfl : limit = n := by
      rcases hlimit with h | ⟨-, slot, r, hr⟩
      · exact h
      · exact absurd ⟨slot, (List.cons.inj hr).1⟩ hset
    rcases SafeAt.constant_cases hsafe with hconst | ⟨-, j, v, rfl, hk, hcall, hrest⟩
    · have hfetched : Fetched K main limit 0 main pre i m := by
        refine hv.fetched [] (by rw [hframe, List.append_nil]) (by rw [hframe]) hsplit
          (by rw [hframe, hsize, Nat.zero_add]) hnoset ?_
        intro pre' rest' hsplit' hcount
        rw [hframe, hcallers, Nat.zero_add]
        exact .main hsplit' (hcount.trans hn) (.inl rfl)
      exact hfetched.exec (Nat.zero_le _) (by rw [hn, Nat.zero_add]) hsafe hnoset
        (by simpa only [hn, Nat.zero_add] using hconst)
    · -- a function that calls itself, right before its global is set
      rw [Nat.zero_add, hn] at hcall
      rw [← hv.pool_eq] at hk
      rw [exec_constant hk]
      have hstack (w : Value) (hw : w ∈ m.stack) : w.Callable K (limit + 1) :=
        (hv.stack w hw).mono (Nat.le_succ limit)
      refine ⟨limit, limit + 1, hv.withStack (forall_mem_push hstack hcall) (Nat.le_succ limit)
        _ _ _, ?_⟩
      have hframes : Frames K main limit (limit + 1) m.frame m.callers
          (height 0 (pre ++ [.constant j])) := by
        rw [hframe, hcallers]
        exact .main hnext (by simp [hn, Instr.setsGlobal]) (.inr ⟨rfl, hrest⟩)
      rw [height_append, ← hsize] at hframes
      rw [Array.size_push]
      exact hframes

/-- An instruction of a function keeps a machine safe. -/
theorem ValuesSafe.exec_function {body pre rest : List Instr} {i : Instr} {base : Nat}
    {caller : Frame} {callers : List Frame} (hv : ValuesSafe K n n m)
    (hbal : Balanced K n 1 0 1 body 2) (hsplit : body = pre ++ i :: rest)
    (hframe : m.frame = ⟨.ofInstrs (body ++ [.return_]), codeSize (pre ++ [i]), base⟩)
    (hcallers : m.callers = caller :: callers) (hsize : m.stack.size = base + height 1 pre)
    (hwait : Frames K main n n caller callers (base + 1)) :
    (m.exec i).toStep.Keeps (Safe K main) := by
  have hzero : setCount pre = 0 ∧ i.setsGlobal = false := by
    have hcount : setCount body = 0 := hbal.setCount_eq_zero
    simp only [hsplit, setCount_append, setCount_cons] at hcount
    refine ⟨by omega, ?_⟩
    cases hi : i.setsGlobal with
    | false => rfl
    | true => simp [hi] at hcount
  obtain ⟨hle, hsafe⟩ :=
    hbal.safeAt [] [] (Nat.le_refl 1) rfl rfl (show n = n + setCount [] from rfl) pre rest i hsplit
  simp only [List.nil_append, List.append_nil] at hle hsafe
  have hfetched : Fetched K main n 1 body pre i m := by
    refine hv.fetched [.return_] (by rw [hframe]) (by rw [hframe]) hsplit (by rw [hframe, hsize])
      hzero.2 ?_
    intro pre' rest' hsplit' _
    rw [hframe, hcallers]
    exact .function hbal hsplit' hwait
  refine hfetched.exec hle (by rw [hzero.1, Nat.add_zero]) hsafe hzero.2 ?_
  rcases SafeAt.constant_cases hsafe with hconst | ⟨hlocals, -⟩
  · simpa only [hzero.1, Nat.add_zero] using hconst
  · exact absurd hlocals Nat.one_ne_zero

/-- The end of a function keeps a machine safe. -/
theorem ValuesSafe.exec_return {base : Nat} {caller : Frame} {callers : List Frame}
    (hv : ValuesSafe K n n m) (hbase : m.frame.base = base)
    (hcallers : m.callers = caller :: callers) (hsize : m.stack.size = base + 2)
    (hwait : Frames K main n n caller callers (base + 1)) :
    (m.exec .return_).toStep.Keeps (Safe K main) := by
  obtain ⟨s, v, hs, hcall, hv'⟩ := exists_push_of_pos (by omega) hv.stack
  rw [hs, Array.size_push] at hsize
  rw [Machine.exec_return hcallers hs, hbase]
  refine ⟨n, n, hv.withStack (forall_mem_push ?_ hv') (Nat.le_refl n) _ _ _, ?_⟩
  · intro w hw
    rw [Array.mem_def, Array.toList_shrink] at hw
    exact hcall w (Array.mem_def.mpr (List.mem_of_mem_take hw))
  · have hlen : ((s.shrink base).push v).size = base + 1 := by
      rw [Array.size_push, Array.size_shrink]
      omega
    exact hlen ▸ hwait

/-- To go to another offset keeps the values of a machine safe. -/
theorem ValuesSafe.goto (hv : ValuesSafe K n limit m) (ip : Nat) :
    ValuesSafe K n limit (m.goto ip) :=
  hv.withStack hv.stack (Nat.le_refl limit) _ _ _

/-- A step of a safe machine leads to a safe machine, or halts, or fails ordinarily. -/
theorem Safe.step (hmain : ∀ pre rest i, main = pre ++ i :: rest → i.SafeAt K 0 0 main pre rest)
    (hs : Safe K main m) : m.step.Keeps (Safe K main) := by
  obtain ⟨n, limit, hv, hframes⟩ := hs
  generalize hframe : m.frame = f at hframes
  generalize hcallers : m.callers = cs at hframes
  generalize hsize : m.stack.size = k at hframes
  cases hframes with
  | @main _ pre rest hsplit hn hlimit =>
    cases rest with
    | nil =>
      rw [List.append_nil] at hsplit
      rw [step_at_end (by rw [hframe]) (by rw [hframe, hsplit]), hcallers]
      trivial
    | cons i rest =>
      rw [step_at_boundary (by rw [hframe, hsplit]) (by rw [hframe])]
      exact (hv.goto _).exec_main hsplit (hmain pre rest i hsplit) (by rw [Machine.goto, hframe])
        hcallers hsize hn hlimit
  | @function body pre rest base caller callers hbal hsplit hwait =>
    cases rest with
    | nil =>
      rw [List.append_nil] at hsplit
      subst hsplit
      rw [hbal.height_eq] at hsize
      rw [step_at_boundary (by rw [hframe]) (by rw [hframe])]
      exact (hv.goto _).exec_return (by rw [Machine.goto, hframe]) hcallers hsize hwait
    | cons i rest =>
      have hcode : m.frame.code = .ofInstrs (pre ++ i :: (rest ++ [.return_])) := by
        simp [hframe, hsplit]
      rw [step_at_boundary hcode (by rw [hframe])]
      exact (hv.goto _).exec_function hbal hsplit (by rw [Machine.goto, hframe]) hcallers hsize
        hwait

/-- A run of a safe machine stays safe. -/
theorem Safe.of_steps
    (hmain : ∀ pre rest i, main = pre ++ i :: rest → i.SafeAt K 0 0 main pre rest)
    {k : Nat} {m' : Machine} (hsteps : Steps k m m') (hs : Safe K main m) : Safe K main m' := by
  refine hsteps.preserves (fun m₀ m₁ hm₀ hstep => ?_) hs
  have hkeep := hm₀.step hmain
  rwa [hstep] at hkeep

/-- A machine that starts an accepted program is safe. -/
theorem safe_start (b : Bytecode) {c : List Instr} (hmain : b.main = .ofInstrs c) :
    Safe b.constants c (start b) := by
  refine ⟨0, 0, ⟨rfl, fun i hi => absurd hi (Nat.not_lt_zero i), ?_, ?_⟩, ?_⟩
  · intro v hv
    simp [start] at hv
  · intro i v hv
    simp [start, global?] at hv
  · simp only [start, hmain]
    exact @Frames.main _ c 0 0 [] c rfl rfl (.inl rfl)

end safe

/-- **Accepted programs fail only through their own fault.** However long the code of an accepted
program runs, the only errors that it can end with are an operand of the wrong type, a division
by zero and a call of a value that is no function. -/
theorem error_of_compile {program : Program} {b : Bytecode} (hcompile : compile program = .ok b)
    (fuel : Nat) {e : Error} (herror : ((start b).runAtFuel fuel).error? = some e) :
    (∃ op found, e = .typeMismatch op found) ∨ (∃ op, e = .divisionByZero op) ∨
      ∃ found, e = .notCallable found := by
  obtain ⟨c, hemits, hmain⟩ :=
    programEmits_of_compile (Q := fun _ _ => True) hcompile fun _ _ => trivial
  have hsafe (pre rest : List Instr) (i : Instr) (hc : c = pre ++ i :: rest) :=
    hemits.safeAt SlotTable.bounded_empty [] ⟨rfl, rfl, rfl⟩ pre rest i hc
  obtain ⟨m, hrun⟩ := Run.eq_failed_of_error? herror
  obtain ⟨k, m₁, hsteps, hfail⟩ := steps_of_runAtFuel_failed hrun
  have hreached : Safe b.constants c m₁ := by
    refine hsteps.preserves (fun m₀ m₁ hm₀ hstep => ?_) (safe_start b hmain)
    have := hm₀.step hsafe
    rwa [hstep] at this
  have := hreached.step hsafe
  rwa [hfail] at this

/-- A function that divides by its argument, called with zero. -/
def reciprocalOfZero : Program :=
  [.define default "f" (.lambda default "x"
      (.binary default (.arith .divide) (.integer default 1) (.name default "x"))),
    .puts default (.apply default (.name default "f") (.integer default 0))]

/-- The bytecode of `reciprocalOfZero`. -/
def reciprocalOfZeroCode : Bytecode :=
  ⟨.ofInstrs [.constant 1, .setGlobal 0, .constant 2, .getGlobal 0, .call, .pop],
    #[.integer 1, .function (.ofInstrs [.constant 0, .getLocal 0, .arith .divide, .return_]),
      .integer 0]⟩

/-- The call with zero ends with one of the three ordinary errors, a division by zero. -/
theorem error_of_compile_reciprocalOfZero :
    compile reciprocalOfZero = .ok reciprocalOfZeroCode ∧
    ((start reciprocalOfZeroCode).runAtFuel 9).error? = some (.divisionByZero .div) ∧
      ((∃ op found, Error.divisionByZero .div = .typeMismatch op found) ∨
        (∃ op, Error.divisionByZero .div = .divisionByZero op) ∨
        ∃ found, Error.divisionByZero .div = .notCallable found) := by
  have hcompile : compile reciprocalOfZero = .ok reciprocalOfZeroCode := rfl
  have herror : ((start reciprocalOfZeroCode).runAtFuel 9).error? = some (.divisionByZero .div) := by
    decide +kernel
  exact ⟨hcompile, herror, error_of_compile hcompile 9 herror⟩

end Machine

end Duet
