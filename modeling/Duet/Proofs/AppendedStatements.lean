import Duet.Proofs.ProgramPoints

/-!
# Statements that are appended to a program

The compiler goes through a program once and never changes what it has emitted. So the code of a
program begins with the code of every beginning of it, and the pool with the constants. The machine
that runs the longer program therefore does at first what it does with the shorter one. Nothing that
it does depends on the code behind: it could not tell whether a block is longer than it seems but by
jumping past its end, and it could not tell that there are more constants but by loading them.

* `Program.emit_append_ok`: the code of the first statements is a beginning of the whole.
* `embed`: a state of the shorter run as it is in the longer one. `exec_embed` and `Safe.step_embed`
  say that the machine goes on in the same way from both.
* `Safe.of_halted`: where a machine stands when it has halted.
* `runs_agree_of_compile_append`: what is left of a program when statements are appended.
-/

namespace Duet

/-! ## Code that is emitted first -/

/-- Statements in front of others are emitted as if the others were not there. -/
theorem Program.emit_append_ok {before after : Program} {σ σ' : Scope} {o p : Nat}
    {c : List Instr} {k : List Constant}
    (h : Program.emit (before ++ after) σ o p = (⟨c, k, none⟩, σ')) :
    ∃ c₁ k₁ σ₁ c₂ k₂, Program.emit before σ o p = (⟨c₁, k₁, none⟩, σ₁) ∧
      Program.emit after σ₁ (o + codeSize c₁) (p + k₁.length) = (⟨c₂, k₂, none⟩, σ') ∧
      c = c₁ ++ c₂ ∧ k = k₁ ++ k₂ := by
  induction before generalizing σ o p c k with
  | nil => exact ⟨[], [], σ, c, k, rfl, h, rfl, rfl⟩
  | cons stmt stmts ih =>
    obtain ⟨c₁, k₁, σ₁, c', k', hstmt, hrest, rfl, rfl⟩ := programEmit_cons_ok h
    obtain ⟨c₂, k₂, σ₂, c₃, k₃, hbefore, hafter, rfl, rfl⟩ := ih hrest
    refine ⟨c₁ ++ c₂, k₁ ++ k₂, σ₂, c₃, k₃, ?_, ?_, ?_, ?_⟩
    · rw [Program.emit, hstmt]
      simp only [hbefore]
    · rw [codeSize_append, List.length_append, ← Nat.add_assoc, ← Nat.add_assoc]
      exact hafter
    · rw [List.append_assoc]
    · rw [List.append_assoc]

/-- The main block of a whole program leaves the stack as high as it was. -/
theorem ProgramEmits.height_eq {K : Array Constant} {Q : String → Nat → Prop} {T : SlotTable}
    {program : Program} {o p : Nat} {c : List Instr} (hp : ProgramEmits K Q T program o p c)
    (hT : T.Bounded) : height 0 c = 0 := by
  induction hp with
  | nil => rfl
  | @puts T _ _ _ o _ c _ c' he _ ih | @expression T _ _ o _ c _ c' he _ ih =>
    have hb : Balanced K T.count 0 o 0 c 1 := he.balanced hT (by simp) (Nat.le_refl 0)
    rw [height_append, hb.height_eq]
    exact ih hT
  | @define T _ name _ _ o _ c _ c' _ he _ _ ih =>
    have hb : Balanced K T.count 0 o 0 c 1 := he.balanced hT (by simp) (Nat.le_refl 0)
    rw [height_append, hb.height_eq]
    exact ih (hT.define name)
  | @defineFunction T _ name _ _ o _ c _ c' _ he _ _ ih =>
    have hb : Balanced K (T.define name).count 0 o 0 c 1 :=
      he.balanced (hT.define name) (by simp) (Nat.le_refl 0)
    rw [height_append, hb.height_eq]
    exact ih (hT.define name)

namespace Machine

/-! ## Runs that end -/

/-- A run that has halted took some steps to a state whose next step halts, which is the state it
ended in. -/
theorem steps_of_runAtFuel_halted {n : Nat} {m m' : Machine} (h : m.runAtFuel n = .halted m') :
    ∃ k, Steps k m m' ∧ m'.step = .halted m' := by
  induction n generalizing m with
  | zero => simp [runAtFuel] at h
  | succ n ih =>
    rw [runAtFuel] at h
    cases hs : m.step with
    | running m₁ =>
      simp only [hs] at h
      obtain ⟨k, hsteps, hhalt⟩ := ih h
      exact ⟨k + 1, .cons hs hsteps, hhalt⟩
    | halted m₁ =>
      simp only [hs, Run.halted.injEq] at h
      obtain rfl := h
      obtain rfl := eq_of_step_halted hs
      exact ⟨0, .refl _, hs⟩
    | failed e m₁ => simp [hs] at h

/-- A step carries out the instruction that was fetched, behind it. -/
theorem step_of_fetch {m : Machine} {i : Instr} (h : m.frame.code.fetch m.frame.ip = .instr i) :
    m.step = ((m.goto (m.frame.ip + i.size)).exec i).toStep := by
  rw [step, h]
  rfl

/-- A machine halts where its block has ended, outside of all functions. -/
theorem step_eq_halted {m m' : Machine} (h : m.step = .halted m') :
    m.frame.code.fetch m.frame.ip = .finished ∧ m.callers = [] := by
  cases hfetch : m.frame.code.fetch m.frame.ip with
  | finished =>
    rw [step, hfetch] at h
    by_cases hcallers : m.callers.isEmpty = true
    · exact ⟨rfl, List.isEmpty_iff.mp hcallers⟩
    · simp [hcallers] at h
  | unknown byte => simp [step, hfetch] at h
  | truncated op => simp [step, hfetch] at h
  | instr i =>
    rw [step_of_fetch hfetch] at h
    rcases hexec : (m.goto (m.frame.ip + i.size)).exec i with ⟨m₁, _ | e⟩
    · rw [hexec] at h
      cases h
    · rw [hexec] at h
      cases h

/-- An ordinary error is not one of those that stand for a broken block. -/
theorem Error.IsOrdinary.code_ne {e : Error} (h : e.IsOrdinary) : e.code ≠ "MAL-R006" := by
  rcases h with ⟨op, found, rfl⟩ | ⟨op, rfl⟩ | ⟨found, rfl⟩ <;> simp [code]

/-! ## The same state in a longer program -/

/-- The frame above the given ones; if there are none, it is moved to another block. -/
def Frame.rebased (code : Code) (f : Frame) : List Frame → Frame
  | [] => { f with code := code }
  | _ :: _ => f

/-- The frames, with the bottom one moved to another block. -/
def rebased (code : Code) : List Frame → List Frame
  | [] => []
  | f :: callers => f.rebased code callers :: rebased code callers

/-- The state as it is in a run of the given bytecode. -/
def embed (b : Bytecode) (m : Machine) : Machine :=
  { m with
    pool := b.constants
    frame := m.frame.rebased b.main m.callers
    callers := rebased b.main m.callers }

/-- What carrying out an instruction led to, in a run of the given bytecode. -/
def Result.embed (b : Bytecode) (r : Result) : Result :=
  ⟨r.state.embed b, r.error⟩

/-- What a step led to, in a run of the given bytecode. -/
def Step.embed (b : Bytecode) : Step → Step
  | .running m => .running (m.embed b)
  | .halted m => .halted (m.embed b)
  | .failed e m => .failed e (m.embed b)

section embed

variable {b : Bytecode} {m m' : Machine} {i : Instr}

/-- A frame that is moved to another block keeps its base. -/
theorem Frame.base_rebased (code : Code) (f : Frame) (callers : List Frame) :
    (f.rebased code callers).base = f.base := by
  cases callers <;> rfl

/-- A frame that is moved to another block keeps its place. -/
theorem Frame.ip_rebased (code : Code) (f : Frame) (callers : List Frame) :
    (f.rebased code callers).ip = f.ip := by
  cases callers <;> rfl

/-- To go to an offset is the same in both runs. -/
theorem goto_embed (m : Machine) (ip : Nat) : (m.embed b).goto ip = (m.goto ip).embed b := by
  unfold embed Machine.goto
  cases m.callers <;> rfl

/-- Results of instructions become results of steps in the same way in both runs. -/
theorem toStep_embed (r : Result) : (r.embed b).toStep = r.toStep.embed b := by
  rcases r with ⟨m, _ | e⟩
  · rfl
  · rfl

/-- A value is taken off the stack in both runs alike, if they go on alike with it. -/
theorem pop_embed {op : Opcode} {next next' : Value → Machine → Result}
    (h : ∀ v s, m.stack = s.push v →
      next' v (({ m with stack := s } : Machine).embed b)
        = (next v { m with stack := s }).embed b) :
    (m.embed b).pop op next' = (m.pop op next).embed b := by
  have hstack : (m.embed b).stack = m.stack := rfl
  unfold Machine.pop
  rw [hstack]
  cases hback : m.stack.back? with
  | none => rfl
  | some v =>
    obtain ⟨s, hs⟩ := Array.back?_eq_some_iff.mp hback
    have hnext := h v s hs
    simp only [hs, Array.pop_push]
    exact hnext

/-- A jump inside the shorter block is one inside the longer block. -/
theorem jump_embed {target : Nat} (hsize : m.frame.code.size ≤ (m.embed b).frame.code.size)
    (htarget : target ≤ m.frame.code.size) :
    (m.embed b).jump target = (m.jump target).embed b := by
  unfold Machine.jump
  rw [if_pos htarget, if_pos (Nat.le_trans htarget hsize)]
  unfold embed
  cases m.callers <;> rfl

/-- Arithmetic is carried out in both runs alike. -/
theorem execArith_embed (m : Machine) (op : ArithOp) :
    (m.embed b).execArith op = (m.execArith op).embed b := by
  refine pop_embed fun right s _ => pop_embed fun left s _ => ?_
  cases left with
  | integer l =>
    cases right with
    | integer r => cases hres : op.result? l r <;> simp only [hres] <;> rfl
    | _ => rfl
  | _ => rfl

/-- A call is carried out in both runs alike. -/
theorem execCall_embed (m : Machine) : (m.embed b).execCall = m.execCall.embed b := by
  refine pop_embed fun callee s _ => ?_
  cases callee with
  | function j code =>
    by_cases hsize : s.size = 0
    · simp only [embed, hsize, if_pos]
      rfl
    · simp only [embed, hsize, if_neg, not_false_eq_true]
      rfl
  | _ => rfl

/-- Where a caller waits, a `return` takes its value to the stack of the caller. -/
theorem execReturn_of_callers {caller : Frame} {callers : List Frame}
    (h : m.callers = caller :: callers) :
    m.execReturn = m.pop .return_ fun v m => ok { m with
      stack := (m.stack.shrink m.frame.base).push v
      frame := caller
      callers := callers } := by
  rw [execReturn, h]

/-- A `return` is carried out in both runs alike. -/
theorem execReturn_embed (m : Machine) : (m.embed b).execReturn = m.execReturn.embed b := by
  obtain ⟨pool, stack, globals, frame, callers, shown⟩ := m
  cases callers with
  | nil => rfl
  | cons caller callers =>
    rw [execReturn_of_callers rfl, execReturn_of_callers rfl]
    exact pop_embed fun _ _ _ => rfl

/-- Where a jump leads that does not fail through the fault of its code. -/
theorem le_size_of_ordinary {target : Nat}
    (hordinary : ∀ (e : Error) (m' : Machine), m.jump target = m'.fail e → e.IsOrdinary) :
    target ≤ m.frame.code.size := by
  by_contra hle
  exact (hordinary (.jumpOutOfRange target m.frame.code.size) m (if_neg hle)).code_ne rfl

/-- An instruction that does not fail through the fault of its code does the same in the longer
program: it finds its constants, and it jumps inside its block. -/
theorem exec_embed (hpool : ∀ (j : Nat) c, m.pool[j]? = some c → b.constants[j]? = some c)
    (hsize : m.frame.code.size ≤ (m.embed b).frame.code.size)
    (hordinary : ∀ (e : Error) (m' : Machine), m.exec i = m'.fail e → e.IsOrdinary) :
    (m.embed b).exec i = (m.exec i).embed b := by
  cases i with
  | constant index =>
    -- outside the pool the shorter run would fail in a way that safe machines do not
    cases hc : m.pool[index.toNat]? with
    | none =>
      have hfail : m.exec (.constant index) = m.fail (.constantOutOfRange index.toNat) := by
        rw [exec, hc]
      exact absurd rfl (hordinary _ _ hfail).code_ne
    | some c =>
      rw [exec_constant hc, exec_constant (hpool _ c hc)]
      rfl
  | boolean value => rfl
  | nil => rfl
  | arith op => exact execArith_embed m op
  | equal =>
    rw [exec, exec]
    exact pop_embed fun _ _ _ => pop_embed fun _ _ _ => rfl
  | notEqual =>
    rw [exec, exec]
    exact pop_embed fun _ _ _ => pop_embed fun _ _ _ => rfl
  | not =>
    rw [exec, exec]
    exact pop_embed fun _ _ _ => rfl
  | negate =>
    rw [exec, exec]
    refine pop_embed fun v s _ => ?_
    cases v <;> rfl
  | pop =>
    rw [exec, exec]
    exact pop_embed fun _ _ _ => rfl
  | jumpIfNotTrue target =>
    rw [exec, exec]
    refine pop_embed fun v s hs => ?_
    rw [exec, pop_of_stack hs] at hordinary
    cases hv : v.isTruthy with
    | true => rfl
    | false =>
      -- a target outside the block would fail in a way that safe machines do not
      rw [hv] at hordinary
      exact jump_embed hsize (le_size_of_ordinary hordinary)
  | jump target => exact jump_embed hsize (le_size_of_ordinary hordinary)
  | setGlobal slot =>
    rw [exec, exec]
    exact pop_embed fun _ _ _ => rfl
  | getGlobal slot =>
    have hglobal : (m.embed b).global? slot.toNat = m.global? slot.toNat := rfl
    rw [exec, exec, hglobal]
    cases m.global? slot.toNat <;> rfl
  | getLocal slot =>
    have hlocal : (m.embed b).stack[(m.embed b).frame.base + slot.toNat]?
        = m.stack[m.frame.base + slot.toNat]? := by
      show m.stack[(m.frame.rebased b.main m.callers).base + slot.toNat]? = _
      rw [Frame.base_rebased]
    rw [exec, exec, hlocal]
    cases m.stack[m.frame.base + slot.toNat]? <;> rfl
  | call => exact execCall_embed m
  | return_ => exact execReturn_embed m

end embed

/-! ## Steps in the longer program -/

section safe

variable {K : Array Constant} {main after : List Instr} {b : Bytecode} {m m' : Machine} {i : Instr}
  {k : Nat}

/-- A machine that has halted stands at the end of the main block, outside of all functions. -/
theorem Safe.of_halted (hs : Safe K main m) (hhalt : m.step = .halted m) :
    m.callers = [] ∧ m.frame = ⟨.ofInstrs main, codeSize main, 0⟩ ∧
      m.stack.size = height 0 main := by
  obtain ⟨hfetch, hcallers⟩ := step_eq_halted hhalt
  obtain ⟨pre, rest, hsplit, hframe, hsize⟩ := hs.exists_split hcallers
  cases rest with
  | nil =>
    rw [List.append_nil] at hsplit
    subst hsplit
    exact ⟨hcallers, hframe, hsize⟩
  | cons i rest =>
    rw [hframe, hsplit, Code.fetch_ofInstrs] at hfetch
    cases hfetch

/-- The longer block has the same instruction at the same place. -/
theorem Safe.fetch_embed (hb : b.main = .ofInstrs (main ++ after)) (hs : Safe K main m)
    (hfetch : m.frame.code.fetch m.frame.ip = .instr i) :
    (m.embed b).frame.code.fetch (m.embed b).frame.ip = .instr i ∧
      m.frame.code.size ≤ (m.embed b).frame.code.size := by
  by_cases hcallers : m.callers = []
  · obtain ⟨pre, rest, hsplit, hframe, -⟩ := hs.exists_split hcallers
    rw [hframe] at hfetch
    obtain ⟨rest', rfl⟩ := Code.exists_cons_of_fetch hsplit hfetch
    have hembed : (m.embed b).frame = ⟨.ofInstrs (main ++ after), codeSize pre, 0⟩ := by
      rw [embed, hcallers, hframe, ← hb]
      rfl
    rw [hembed, hframe, Code.size_ofInstrs, Code.size_ofInstrs, codeSize_append, hsplit,
      List.append_assoc]
    exact ⟨Code.fetch_ofInstrs pre _ i, Nat.le_add_right _ _⟩
  · obtain ⟨caller, callers, hcons⟩ := List.exists_cons_of_ne_nil hcallers
    have hembed : (m.embed b).frame = m.frame := by
      rw [embed, hcons]
      rfl
    rw [hembed]
    exact ⟨hfetch, Nat.le_refl _⟩

section code

variable (hmain : ∀ pre rest i, main = pre ++ i :: rest → i.SafeAt K 0 0 main pre rest)
include hmain

/-- A safe machine fetches an instruction, or it halts. -/
theorem Safe.exists_fetch (hs : Safe K main m) :
    (∃ i, m.frame.code.fetch m.frame.ip = .instr i) ∨ m.step = .halted m := by
  -- whatever else there is fails with an error that safe machines do not have
  have hcode {e : Error} (hfail : m.step = .failed e m) : e.code ≠ "MAL-R006" := by
    have hkeep := hs.step hmain
    rw [hfail] at hkeep
    exact Error.IsOrdinary.code_ne hkeep
  cases hfetch : m.frame.code.fetch m.frame.ip with
  | instr i => exact .inl ⟨i, rfl⟩
  | finished =>
    by_cases hcallers : m.callers.isEmpty = true
    · refine .inr ?_
      rw [Machine.step, hfetch]
      exact if_pos hcallers
    · have hfail : m.step = .failed .missingReturn m := by
        rw [Machine.step, hfetch]
        exact if_neg hcallers
      exact absurd rfl (hcode hfail)
  | unknown byte =>
    have hfail : m.step = .failed (.unknownOpcode byte m.frame.ip) m := by rw [Machine.step, hfetch]
    exact absurd rfl (hcode hfail)
  | truncated op =>
    have hfail : m.step = .failed (.truncatedOperand op m.frame.ip) m := by
      rw [Machine.step, hfetch]
    exact absurd rfl (hcode hfail)

variable (hpool : ∀ (j : Nat) c, K[j]? = some c → b.constants[j]? = some c)
  (hb : b.main = .ofInstrs (main ++ after))
include hpool hb

/-- A step of a safe machine, as long as it does not halt, is the same in the longer program. -/
theorem Safe.step_embed (hs : Safe K main m)
    (hfetch : m.frame.code.fetch m.frame.ip = .instr i) :
    (m.embed b).step = m.step.embed b := by
  obtain ⟨hfetch', hsize⟩ := hs.fetch_embed hb hfetch
  have hkeep := hs.step hmain
  rw [step_of_fetch hfetch] at hkeep
  have hip : (m.embed b).frame.ip = m.frame.ip := Frame.ip_rebased _ _ _
  have hpool' : m.pool = K := by
    obtain ⟨n, limit, hv, -⟩ := hs
    exact hv.pool_eq
  have hexec : ((m.goto (m.frame.ip + i.size)).embed b).exec i
      = ((m.goto (m.frame.ip + i.size)).exec i).embed b := by
    refine exec_embed ?_ ?_ ?_
    · show ∀ (j : Nat) c, m.pool[j]? = some c → _
      rw [hpool']
      exact hpool
    · rw [← goto_embed]
      exact hsize
    · intro e m' hfail
      rw [hfail] at hkeep
      exact hkeep
  rw [step_of_fetch hfetch', step_of_fetch hfetch, hip, goto_embed, hexec, toStep_embed]

/-- All steps of a run are taken in the longer program as well. -/
theorem Safe.steps_embed (hsteps : Steps k m m') (hs : Safe K main m) :
    Steps k (m.embed b) (m'.embed b) := by
  induction hsteps with
  | refl m => exact .refl _
  | @cons k m m₁ m₂ hstep _ ih =>
    obtain ⟨i, hfetch, -⟩ := step_eq_running_iff.mp hstep
    refine .cons ?_ (ih (hs.of_steps hmain (.one hstep)))
    rw [hs.step_embed hmain hpool hb hfetch, hstep]
    rfl

end code

end safe

end Machine

/-! ## Accepted programs -/

section append

variable {before after : Program} {a b : Bytecode} {c : List Instr}

/-- A beginning of an accepted program is accepted, and its code and its constants are beginnings. -/
theorem Compiled.of_append (h : Compiled (before ++ after) b c) :
    ∃ a c₁ c₂, compile before = .ok a ∧ Compiled before a c₁ ∧ c = c₁ ++ c₂ ∧
      a.constants.toList <+: b.constants.toList := by
  obtain ⟨scope, hemit⟩ := h.emit_eq
  obtain ⟨c₁, k₁, σ₁, c₂, k₂, hbefore, -, hc, hk⟩ := Program.emit_append_ok hemit
  have hcompile : compile before = .ok ⟨.ofInstrs c₁, k₁.toArray⟩ :=
    compile_eq_ok_iff.mpr ⟨c₁, σ₁, hbefore, rfl⟩
  obtain ⟨c', hcompiled⟩ := compiled_of_compile hcompile
  refine ⟨_, c₁, c₂, hcompile, ⟨rfl, ⟨σ₁, hbefore⟩, hcompiled.definitions⟩, hc, ?_⟩
  rw [hk]
  exact List.prefix_append k₁ k₂

/-- A constant of the shorter pool stands at the same place in the longer pool. -/
theorem getElem?_of_prefix (h : a.constants.toList <+: b.constants.toList) (j : Nat) (v : Constant)
    (hj : a.constants[j]? = some v) : b.constants[j]? = some v := by
  rw [← Array.getElem?_toList] at hj ⊢
  obtain ⟨rest, hrest⟩ := h
  rw [← hrest, List.getElem?_append_left (List.getElem?_eq_some_iff.mp hj).1]
  exact hj

end append

open Machine (Steps)

/-- **Appending statements never changes what came before.** If statements can be appended to a
program, it is accepted by itself; its main block and its pool are beginnings of the longer ones. If
its run fails, the longer run fails with the same error when the same values have been shown. If its
run halts, the longer run comes to a state at the end of the shorter block, outside of all functions
and with nothing on the stack, when the same values have been shown and the same globals are set. -/
theorem runs_agree_of_compile_append {before after : Program} {b : Bytecode}
    (hcompile : compile (before ++ after) = .ok b) :
    ∃ a, compile before = .ok a ∧ a.main.bytes.toList <+: b.main.bytes.toList ∧
      a.constants.toList <+: b.constants.toList ∧
      (∀ fuel e m, (Machine.start a).runAtFuel fuel = .failed e m →
        ∃ fuel' m', (Machine.start b).runAtFuel fuel' = .failed e m' ∧ m'.shown = m.shown) ∧
      ∀ fuel m, (Machine.start a).runAtFuel fuel = .halted m →
        ∃ k m', Steps k (Machine.start b) m' ∧ m'.frame = ⟨b.main, a.main.size, 0⟩ ∧
          m'.callers = [] ∧ m'.stack = #[] ∧ m'.shown = m.shown ∧ m'.globals = m.globals := by
  obtain ⟨c, hlong⟩ := compiled_of_compile hcompile
  obtain ⟨a, c₁, c₂, hbefore, hshort, rfl, hpool⟩ := hlong.of_append
  have hpool' := getElem?_of_prefix hpool
  have hsteps' {k : Nat} {m : Machine} (hsteps : Steps k (Machine.start a) m) :
      Steps k (Machine.start b) (m.embed b) :=
    (Machine.safe_start a hshort.main_eq).steps_embed hshort.safeAt hpool' hlong.main_eq hsteps
  refine ⟨a, hbefore, ?_, hpool, ?_, ?_⟩
  · rw [hshort.main_eq, hlong.main_eq]
    show c₁.flatMap Instr.encode <+: (c₁ ++ c₂).flatMap Instr.encode
    rw [List.flatMap_append]
    exact List.prefix_append _ _
  · intro fuel e m hrun
    obtain ⟨k, m₁, hsteps, hfail⟩ := Machine.steps_of_runAtFuel_failed hrun
    have hsafe := hshort.safe hsteps
    rcases hsafe.exists_fetch hshort.safeAt with ⟨i, hfetch⟩ | hhalt
    · have hfail' : (m₁.embed b).step = .failed e (m.embed b) := by
        rw [hsafe.step_embed hshort.safeAt hpool' hlong.main_eq hfetch, hfail]
        rfl
      exact ⟨k + 1, m.embed b,
        Machine.runAtFuel_eq_failed (hsteps' hsteps) hfail' (Nat.lt_succ_self k), rfl⟩
    · rw [hhalt] at hfail
      cases hfail
  · intro fuel m hrun
    obtain ⟨k, hsteps, hhalt⟩ := Machine.steps_of_runAtFuel_halted hrun
    obtain ⟨hcallers, hframe, hsize⟩ := (hshort.safe hsteps).of_halted hhalt
    rw [hshort.emits.height_eq SlotTable.bounded_empty] at hsize
    have hsize' : a.main.size = codeSize c₁ := by rw [hshort.main_eq, Code.size_ofInstrs]
    refine ⟨k, m.embed b, hsteps' hsteps, ?_, ?_, Array.eq_empty_of_size_eq_zero hsize, rfl, rfl⟩
    · rw [Machine.embed, hcallers, hframe, hsize']
      rfl
    · rw [Machine.embed, hcallers]
      rfl

/-- The bytecode of the first two statements of `factorialProgram`. -/
def factorialStartCode : Bytecode :=
  ⟨.ofInstrs [.constant 3, .setGlobal 0, .constant 4, .getGlobal 0, .call, .pop],
    factorialCode.constants.take 5⟩

/-- One more call of the factorial. -/
def factorialOfTwo : Program :=
  [.puts default (.apply default (.name default "f") (.integer default 2))]

/-- The first two statements of `factorialProgram` halt, and the third one calls their function again.
The whole program fails, and so it does with another statement behind it. -/
theorem runs_agree_factorialProgram :
    compile (factorialProgram.take 2) = .ok factorialStartCode ∧
    (∃ m, (Machine.start factorialStartCode).runAtFuel 26 = .halted m ∧
      ∃ k m', Steps k (Machine.start factorialCode) m' ∧
        m'.frame = ⟨factorialCode.main, factorialStartCode.main.size, 0⟩ ∧ m'.callers = [] ∧
        m'.stack = #[] ∧ m'.shown = m.shown ∧ m'.globals = m.globals) ∧
    ∃ b, compile (factorialProgram ++ factorialOfTwo) = .ok b ∧
      (Machine.start factorialCode).runAtFuel 39 = .failed (.divisionByZero .div) (factorialAfter 39) ∧
      ∃ fuel m, (Machine.start b).runAtFuel fuel = .failed (.divisionByZero .div) m ∧
        m.shown = (factorialAfter 39).shown := by
  have hstart : compile (factorialProgram.take 2) = .ok factorialStartCode := rfl
  refine ⟨hstart, ?_, _, rfl, by decide +kernel, ?_⟩
  · obtain ⟨a, ha, -, -, -, hhalted⟩ := runs_agree_of_compile_append
      (show compile (factorialProgram.take 2 ++ factorialProgram.drop 2) = .ok factorialCode from rfl)
    obtain rfl : factorialStartCode = a := Except.ok.inj (hstart.symm.trans ha)
    have hrun : (Machine.start factorialStartCode).runAtFuel 26
        = .halted ((Machine.start factorialStartCode).runAtFuel 26).state := by decide +kernel
    exact ⟨_, hrun, hhalted 26 _ hrun⟩
  · obtain ⟨a, ha, -, -, hfailed, -⟩ :=
      @runs_agree_of_compile_append factorialProgram factorialOfTwo _ rfl
    obtain rfl : factorialCode = a := Except.ok.inj ha
    exact hfailed 39 _ _ (by decide +kernel)

end Duet
