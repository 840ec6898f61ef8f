import Duet.Proofs.EngineAgreement
import Duet.Proofs.MachineSafety
import Duet.Proofs.RunInvariants
import Duet.Proofs.WellFormedBlocks

/-!
# Where a run stands in its code

A point of a program is a block and an offset in it. In compiled code two things can be said about
points without knowing how the run got there. The number of values that a frame has on the stack is
the same whenever it stands at the same point, whichever arms of conditionals were taken and however
many calls are open. And a frame never comes back to a point: all jumps of a block go forward, and a
call is followed by what stands behind it. So there are no loops but those made of calls.

* `Safe.safeAt_of_fetch`: what is known of the instruction that a safe machine comes to.
* `Safe.stack_size_eq`: the height of the stack, read off the block in front of the point.
* `Safe.frames_of_step`: what a step does to the frames. The frame that runs moves forward, or waits
  further on for the return of another one, or is left.
* `SameActivation`: two states in which the same call of a function runs; which call it is, is told
  by the number of frames alone.
* `bytesAhead`: what the frames have before them. Every step uses up some of it unless it is a call.
* `stackHeight_of_compile` and `offsets_increase_of_compile`: both facts, for accepted programs.
-/

namespace Duet

/-- A block and an offset determine what stands before and behind the offset. -/
theorem Code.boundary_inj {pre rest pre' rest' : List Instr}
    (hcode : Code.ofInstrs (pre ++ rest) = .ofInstrs (pre' ++ rest'))
    (hsize : codeSize pre = codeSize pre') : pre = pre' ∧ rest = rest' := by
  have hrest : some rest = some rest' := by
    rw [← decodeFrom?_ofInstrs pre rest, hcode, hsize, decodeFrom?_ofInstrs]
  have hwhole : some (pre ++ rest) = some (pre' ++ rest') := by
    rw [← decode?_ofInstrs, hcode, decode?_ofInstrs]
  obtain rfl := Option.some.inj hrest
  exact ⟨List.append_cancel_right (Option.some.inj hwhole), rfl⟩

/-- The number of values that a block finds above its base: a function finds its argument there. -/
def argumentCount (is : List Instr) : Nat :=
  if .return_ ∈ is then 1 else 0

/-! ## Expressions without applications -/

section applications

variable {K : Array Constant} {Q : String → Nat → Prop}

/-- Only an application is compiled to a call. -/
theorem Emits.call_notMem {R : List String → String → Nat → Prop} {ps : List String} {e : Expr}
    {o p p' : Nat} {c : List Instr} (he : Emits K R ps e o p c p')
    (happly : ∀ s f a, .apply s f a ∉ e.subterms) : .call ∉ c := by
  induction he with
  | integer _ _ | boolean | nil | local_ | global _ _ | lambda _ _ _ _ => simp
  | @unary _ _ op _ _ _ _ _ _ ih =>
    have hop : op.instr ≠ .call := by cases op <;> exact nofun
    have hc := ih fun s f a h => happly s f a (List.mem_cons_of_mem _ h)
    simp [hc, hop.symm]
  | @binary _ _ op i _ _ _ _ _ _ _ _ hop _ _ ihl ihr =>
    have hi : i ≠ .call := by
      rintro rfl
      cases op <;> cases hop
    have hl := ihl fun s f a h => happly s f a (by simp [Expr.subterms, h])
    have hr := ihr fun s f a h => happly s f a (by simp [Expr.subterms, h])
    simp [hl, hr, hi.symm]
  | ifThen _ _ _ _ _ ihc iht =>
    have hc := ihc fun s f a h => happly s f a (by simp [Expr.subterms, h])
    have ht := iht fun s f a h => happly s f a (by simp [Expr.subterms, h])
    simp [hc, ht]
  | ifElse _ _ _ _ _ _ ihc iht ihe =>
    have hc := ihc fun s f a h => happly s f a (by simp [Expr.subterms, h])
    have ht := iht fun s f a h => happly s f a (by simp [Expr.subterms, h])
    have he := ihe fun s f a h => happly s f a (by simp [Expr.subterms, h])
    simp [hc, ht, he]
  | @apply _ s f a => exact absurd List.mem_cons_self (happly s f a)

/-- The main block of a program without applications has no call in it. -/
theorem ProgramEmits.call_notMem {T : SlotTable} {program : Program} {o p : Nat} {c : List Instr}
    (hp : ProgramEmits K Q T program o p c)
    (happly : ∀ s f a, .apply s f a ∉ Program.subterms program) : .call ∉ c := by
  induction hp with
  | nil => simp
  | puts he _ ih | expression he _ ih | define _ he _ _ ih | defineFunction _ he _ _ ih =>
    have hvalue := he.call_notMem fun s f a h => happly s f a (by
      rw [Program.subterms_cons]
      exact List.mem_append_left _ h)
    have hrest := ih fun s f a h => happly s f a (by
      rw [Program.subterms_cons]
      exact List.mem_append_right _ h)
    simp [hvalue, hrest]

end applications

namespace Machine

/-! ## Steps and fuel -/

/-- After its steps a machine is in the state in which a run with as much fuel is. -/
theorem Steps.state_runAtFuel {k : Nat} {m m' : Machine} (h : Steps k m m') :
    (m.runAtFuel k).state = m' := by
  have hrun := runAtFuel_of_steps h 0
  rw [Nat.add_zero] at hrun
  rw [hrun]
  rfl

/-- A run that has not ended by the end of its fuel took as many steps. -/
theorem steps_state_runAtFuel {n : Nat} {m : Machine} (h : (m.runAtFuel n).isFinished = false) :
    Steps n m (m.runAtFuel n).state := by
  cases hrun : m.runAtFuel n with
  | outOfFuel m' => exact steps_of_runAtFuel_outOfFuel hrun
  | halted m' | failed e m' =>
    rw [hrun] at h
    cases h

/-- In both states the same activation runs, the second one after the given number of steps: there
are as many frames as before, and never were fewer in between. -/
structure SameActivation (k : Nat) (m m' : Machine) : Prop where
  steps : Steps k m m'
  depth_eq : m'.depth = m.depth
  le_depth : ∀ j m₁, j ≤ k → Steps j m m₁ → m.depth ≤ m₁.depth

/-- The number of bytes that the frames have before them. -/
def bytesAhead : List Frame → Nat
  | [] => 0
  | f :: fs => f.code.size - f.ip + bytesAhead fs

section safe

variable {K : Array Constant} {main : List Instr} {m m' : Machine} {i : Instr} {k : Nat}

/-! ## Where a safe machine stands -/

/-- The stack above the base is as high as the block in front of the point says. -/
theorem Safe.stack_size_eq (hmain : .return_ ∉ main) (hs : Safe K main m) :
    ∃ pre rest, m.frame.code = .ofInstrs (pre ++ rest) ∧ m.frame.ip = codeSize pre ∧
      m.stack.size = m.frame.base + height (argumentCount (pre ++ rest)) pre := by
  obtain ⟨n, limit, -, hframes⟩ := hs
  generalize m.frame = f at hframes ⊢
  generalize m.callers = cs at hframes
  generalize m.stack.size = size at hframes ⊢
  cases hframes with
  | @main _ pre rest hsplit _ _ =>
    refine ⟨pre, rest, by rw [← hsplit], rfl, ?_⟩
    rw [← hsplit, argumentCount, if_neg hmain, Nat.zero_add]
  | @function body pre rest base caller callers _ hsplit _ =>
    have hreturn : .return_ ∈ pre ++ (rest ++ [Instr.return_]) := by simp
    refine ⟨pre, rest ++ [.return_], by rw [hsplit, List.append_assoc], rfl, ?_⟩
    rw [argumentCount, if_pos hreturn]

/-- At the top level, the machine stands at a boundary of the main block. -/
theorem Safe.exists_split (hs : Safe K main m) (hcallers : m.callers = []) :
    ∃ pre rest, main = pre ++ rest ∧ m.frame = ⟨.ofInstrs main, codeSize pre, 0⟩ ∧
      m.stack.size = height 0 pre := by
  obtain ⟨n, limit, -, hframes⟩ := hs
  rw [hcallers] at hframes
  generalize m.frame = f at hframes ⊢
  generalize m.stack.size = size at hframes ⊢
  cases hframes with
  | @main _ pre rest hsplit _ _ => exact ⟨pre, rest, hsplit, rfl, rfl⟩

/-- At the top level of a main block without calls, what comes next is none. -/
theorem Safe.fetch_ne_call (hs : Safe K main m) (hcallers : m.callers = []) (hnone : .call ∉ main) :
    m.frame.code.fetch m.frame.ip ≠ .instr .call := by
  intro hfetch
  obtain ⟨pre, rest, hsplit, hframe, -⟩ := hs.exists_split hcallers
  rw [hframe] at hfetch
  obtain ⟨rest', rfl⟩ := Code.exists_cons_of_fetch hsplit hfetch
  exact hnone (hsplit ▸ List.mem_append_right pre List.mem_cons_self)

section code

variable (hmain : ∀ pre rest i, main = pre ++ i :: rest → i.SafeAt K 0 0 main pre rest)
include hmain

/-- The instruction that a safe machine comes to is safe in its block, unless it is the `return` at
the end of a function. Inside functions there is one local. -/
theorem Safe.safeAt_of_fetch (hs : Safe K main m)
    (hfetch : m.frame.code.fetch m.frame.ip = .instr i) :
    i = .return_ ∨ ∃ slots locals body pre rest, (m.callers ≠ [] → locals = 1) ∧
      m.frame.ip = codeSize pre ∧ i.SafeAt K slots locals body pre rest := by
  obtain ⟨n, limit, -, hframes⟩ := hs
  generalize m.frame = f at hframes hfetch ⊢
  generalize m.callers = cs at hframes ⊢
  generalize m.stack.size = size at hframes
  cases hframes with
  | @main _ pre rest hsplit _ _ =>
    obtain ⟨rest', rfl⟩ := Code.exists_cons_of_fetch hsplit hfetch
    exact .inr ⟨0, 0, main, pre, rest', fun h => absurd rfl h, rfl, hmain pre rest' i hsplit⟩
  | @function body pre rest base caller callers hbal hsplit _ =>
    have hwhole : body ++ [.return_] = pre ++ (rest ++ [.return_]) := by
      rw [hsplit, List.append_assoc]
    obtain ⟨rest', hrest⟩ := Code.exists_cons_of_fetch hwhole hfetch
    cases rest with
    | nil => exact .inl (List.cons.inj hrest).1.symm
    | cons j rest =>
      obtain ⟨rfl, -⟩ := List.cons.inj hrest
      obtain ⟨-, hsafe⟩ := hbal.safeAt [] [] (Nat.le_refl 1) rfl rfl
        (show n = n + setCount [] from rfl) pre rest j hsplit
      exact .inr ⟨n, 1, _, pre, _, fun _ => rfl, rfl, hsafe⟩

/-- A jump leads forward. -/
theorem Safe.lt_target (hs : Safe K main m) (hfetch : m.frame.code.fetch m.frame.ip = .instr i)
    {t : UInt16} (hi : i = .jump t ∨ i = .jumpIfNotTrue t) : m.frame.ip < t.toNat := by
  rcases hs.safeAt_of_fetch hmain hfetch with rfl | ⟨slots, locals, body, pre, rest, -, hip, hsafe⟩
  · rcases hi with h | h <;> cases h
  · obtain ⟨h, pre', rest', -, ht, hlt, -⟩ := hsafe.exists_target hi
    rwa [hip, ← ht]

/-! ## What a step does to the frames -/

/-- The frame that runs moves forward, or waits further on for the return of a function that it has
called, or is left. -/
theorem Safe.frames_of_step (hs : Safe K main m) (hstep : m.step = .running m') :
    (∃ ip, m.frame.ip < ip ∧ m'.frame = { m.frame with ip := ip } ∧ m'.callers = m.callers) ∨
    (m.frame.code.fetch m.frame.ip = .instr .call ∧
      ∃ ip, m.frame.ip < ip ∧ m'.callers = { m.frame with ip := ip } :: m.callers) ∨
    m.callers = m'.frame :: m'.callers := by
  obtain ⟨i, hfetch, hexec⟩ := step_eq_running_iff.mp hstep
  have hnext : m.frame.ip < m.frame.ip + i.size := Nat.lt_add_of_pos_right i.size_pos
  rcases hexec.frames with ⟨hframe, hcallers⟩ | ⟨t, hi, hframe, hcallers⟩ | ⟨hi, hcallers⟩ |
    ⟨-, hcallers⟩
  · exact .inl ⟨_, hnext, hframe, hcallers⟩
  · exact .inl ⟨_, hs.lt_target hmain hfetch hi, hframe, hcallers⟩
  · exact .inr (.inl ⟨hi ▸ hfetch, _, hnext, hcallers⟩)
  · exact .inr (.inr hcallers)

/-- The frame that runs is still there after a step, further on, unless it was left. -/
theorem Safe.suffix_of_step (hs : Safe K main m) (hstep : m.step = .running m')
    (hdepth : m.depth ≤ m'.depth) :
    ∃ ip, m.frame.ip < ip ∧ { m.frame with ip := ip } :: m.callers <:+ m'.frame :: m'.callers := by
  rcases hs.frames_of_step hmain hstep with ⟨ip, hlt, hframe, hcallers⟩ | ⟨-, ip, hlt, hcallers⟩ |
    hcallers
  · exact ⟨ip, hlt, [], (congrArg₂ List.cons hframe hcallers).symm⟩
  · refine ⟨ip, hlt, ?_⟩
    rw [hcallers]
    exact List.suffix_cons _ _
  · unfold depth at hdepth
    rw [hcallers, List.length_cons] at hdepth
    omega

/-- A frame that runs or waits is still there after a step, and has not gone back, unless it was
left. -/
theorem Safe.suffix_of_suffix (hs : Safe K main m) (hstep : m.step = .running m') {f : Frame}
    {outer : List Frame} (hsuffix : f :: outer <:+ m.frame :: m.callers)
    (hdepth : outer.length < m'.depth) :
    ∃ ip, f.ip ≤ ip ∧ { f with ip := ip } :: outer <:+ m'.frame :: m'.callers := by
  rcases List.suffix_cons_iff.mp hsuffix with htop | hwait
  · obtain ⟨rfl, rfl⟩ := List.cons.inj htop
    obtain ⟨ip, hlt, hsuffix'⟩ := hs.suffix_of_step hmain hstep hdepth
    exact ⟨ip, Nat.le_of_lt hlt, hsuffix'⟩
  · -- a frame that waits is moved by nothing
    refine ⟨f.ip, Nat.le_refl _, ?_⟩
    rcases hs.frames_of_step hmain hstep with ⟨_, -, -, hcallers⟩ | ⟨-, _, -, hcallers⟩ | hcallers
    · rw [hcallers]
      exact hwait.trans (List.suffix_cons _ _)
    · rw [hcallers]
      exact hwait.trans ((List.suffix_cons _ _).trans (List.suffix_cons _ _))
    · rwa [← hcallers]

/-- A frame stays, and does not go back, as long as it is not left. -/
theorem Safe.suffix_of_steps (hsteps : Steps k m m') (hs : Safe K main m) {f : Frame}
    {outer : List Frame} (hsuffix : f :: outer <:+ m.frame :: m.callers)
    (hdepth : ∀ j m₁, j ≤ k → Steps j m m₁ → outer.length < m₁.depth) :
    ∃ ip, f.ip ≤ ip ∧ { f with ip := ip } :: outer <:+ m'.frame :: m'.callers := by
  induction hsteps generalizing f with
  | refl m => exact ⟨f.ip, Nat.le_refl _, hsuffix⟩
  | @cons k m m₁ m₂ hstep _ ih =>
    have hdepth₁ := hdepth 1 m₁ (Nat.le_add_left 1 k) (.one hstep)
    obtain ⟨ip₁, hle₁, hsuffix₁⟩ := hs.suffix_of_suffix hmain hstep hsuffix hdepth₁
    obtain ⟨ip₂, hle₂, hsuffix₂⟩ := ih (hs.of_steps hmain (.one hstep)) hsuffix₁
      fun j m₃ hj hsteps => hdepth (j + 1) m₃ (Nat.succ_le_succ hj) (.cons hstep hsteps)
    exact ⟨ip₂, Nat.le_trans hle₁ hle₂, hsuffix₂⟩

/-! ## Activations -/

/-- An activation that has gone on for at least one step is the same but for the offset, which is
greater. -/
theorem SameActivation.frame_eq (h : SameActivation (k + 1) m m') (hs : Safe K main m) :
    m'.callers = m.callers ∧ ∃ ip, m.frame.ip < ip ∧ m'.frame = { m.frame with ip := ip } := by
  obtain ⟨hsteps, hdepth, hle⟩ := h
  cases hsteps with
  | @cons _ _ m₁ _ hstep hrest =>
    have hle₁ := hle 1 m₁ (Nat.le_add_left 1 k) (.one hstep)
    obtain ⟨ip₁, hlt, hsuffix₁⟩ := hs.suffix_of_step hmain hstep hle₁
    have hs₁ := hs.of_steps hmain (.one hstep)
    obtain ⟨ip, hge, hsuffix⟩ := hs₁.suffix_of_steps hmain hrest hsuffix₁
      fun j m₂ hj hsteps => hle (j + 1) m₂ (Nat.succ_le_succ hj) (.cons hstep hsteps)
    have hlength : ({ m.frame with ip := ip } :: m.callers).length
        = (m'.frame :: m'.callers).length := hdepth.symm
    obtain ⟨hframe, hcallers⟩ := List.cons.inj (hsuffix.eq_of_length hlength)
    exact ⟨hcallers.symm, ip, Nat.lt_of_lt_of_le hlt hge, hframe.symm⟩

/-! ## How much code is left -/

/-- Every step but a call uses up some of the code. -/
theorem Safe.bytesAhead_lt (hs : Safe K main m) (hstep : m.step = .running m')
    (hcall : m.frame.code.fetch m.frame.ip ≠ .instr .call) :
    bytesAhead (m'.frame :: m'.callers) < bytesAhead (m.frame :: m.callers) := by
  obtain ⟨i, hfetch, -⟩ := step_eq_running_iff.mp hstep
  have hinside := Code.lt_size_of_fetch hfetch
  rcases hs.frames_of_step hmain hstep with ⟨ip, hlt, hframe, hcallers⟩ | ⟨hi, -⟩ | hcallers
  · rw [hframe, hcallers]
    simp only [bytesAhead]
    omega
  · exact absurd hi hcall
  · rw [← hcallers]
    simp only [bytesAhead]
    omega

/-- A run without calls is no longer than the code before it. -/
theorem Safe.add_bytesAhead_le (hsteps : Steps k m m') (hs : Safe K main m)
    (hcall : ∀ j m₁, Steps j m m₁ → m₁.frame.code.fetch m₁.frame.ip ≠ .instr .call) :
    k + bytesAhead (m'.frame :: m'.callers) ≤ bytesAhead (m.frame :: m.callers) := by
  induction hsteps with
  | refl m => exact Nat.le_of_eq (Nat.zero_add _)
  | @cons k m m₁ m₂ hstep _ ih =>
    have hlt := hs.bytesAhead_lt hmain hstep (hcall 0 m (.refl m))
    have hle := ih (hs.of_steps hmain (.one hstep)) fun j m₃ hsteps =>
      hcall (j + 1) m₃ (.cons hstep hsteps)
    omega

/-- So a machine that makes no calls ends its run. -/
theorem Safe.isFinished_of_no_call (hs : Safe K main m)
    (hcall : ∀ j m₁, Steps j m m₁ → m₁.frame.code.fetch m₁.frame.ip ≠ .instr .call) :
    (m.runAtFuel (bytesAhead (m.frame :: m.callers) + 1)).isFinished = true := by
  rw [← Bool.not_eq_false]
  intro hfinished
  have hle := hs.add_bytesAhead_le hmain (steps_state_runAtFuel hfinished) hcall
  omega

/-- A main block without calls is never left. -/
theorem Safe.callers_eq_nil (hnone : .call ∉ main) (hsteps : Steps k m m') (hs : Safe K main m)
    (hcallers : m.callers = []) :
    m'.callers = [] := by
  induction hsteps with
  | refl m => exact hcallers
  | @cons k m m₁ m₂ hstep _ ih =>
    refine ih (hs.of_steps hmain (.one hstep)) ?_
    rcases hs.frames_of_step hmain hstep with ⟨_, -, -, hsame⟩ | ⟨hcall, -⟩ | hreturn
    · rw [hsame, hcallers]
    · exact absurd hcall (hs.fetch_ne_call hcallers hnone)
    · rw [hcallers] at hreturn
      cases hreturn

end code

end safe

end Machine

/-! ## Accepted programs -/

open Machine (Steps SameActivation)

variable {program : Program} {b : Bytecode}

/-- A compiled program keeps its machine safe all along the run. -/
theorem Compiled.safe {c : List Instr} (h : Compiled program b c) {k : Nat} {m : Machine}
    (hsteps : Steps k (Machine.start b) m) : Machine.Safe b.constants c m :=
  (Machine.safe_start b h.main_eq).of_steps h.safeAt hsteps

/-- **The height of the stack depends only on the program point.** Whenever two states of a run stand
at the same offset of the same block, the frames that run have equally many values above their
bases, through whichever branches and in however deep a call the states were reached. -/
theorem stackHeight_of_compile (hcompile : compile program = .ok b) {k k' : Nat} {m m' : Machine}
    (hsteps : Steps k (Machine.start b) m) (hsteps' : Steps k' (Machine.start b) m')
    (hcode : m.frame.code = m'.frame.code) (hip : m.frame.ip = m'.frame.ip) :
    ∃ height, m.stack.size = m.frame.base + height ∧ m'.stack.size = m'.frame.base + height := by
  obtain ⟨c, hcompiled⟩ := compiled_of_compile hcompile
  have hreturn := hcompiled.emits.mainBlock.no_return
  obtain ⟨pre, rest, hblock, hsize, hheight⟩ := (hcompiled.safe hsteps).stack_size_eq hreturn
  obtain ⟨pre', rest', hblock', hsize', hheight'⟩ := (hcompiled.safe hsteps').stack_size_eq hreturn
  obtain ⟨rfl, rfl⟩ : pre = pre' ∧ rest = rest' := by
    refine Code.boundary_inj ?_ ?_
    · rw [← hblock, hcode, hblock']
    · rw [← hsize, hip, hsize']
  exact ⟨_, hheight, hheight'⟩

/-- The machine that runs `factorialProgram`, after some steps. -/
def factorialAfter (k : Nat) : Machine :=
  ((Machine.start factorialCode).runAtFuel k).state

/-- The first steps of `factorialProgram` lead to the states that `factorialAfter` gives. -/
theorem steps_factorialAfter {k : Nat} (hk : k < 39) :
    Steps k (Machine.start factorialCode) (factorialAfter k) := by
  have hrunning : ∀ k < 39, ((Machine.start factorialCode).runAtFuel k).isFinished = false := by
    decide +kernel
  exact Machine.steps_state_runAtFuel (hrunning k hk)

/-- The `return` of the factorial, reached through the first branch in the inner call and through the
second one in the outer call. -/
theorem stackHeight_factorialProgram :
    compile factorialProgram = .ok factorialCode ∧
    (factorialAfter 21).frame.ip = 24 ∧ (factorialAfter 23).frame.ip = 24 ∧
    (factorialAfter 21).depth = 3 ∧ (factorialAfter 23).depth = 2 ∧
    (factorialAfter 21).frame.base ≠ (factorialAfter 23).frame.base ∧
    ∃ height, (factorialAfter 21).stack.size = (factorialAfter 21).frame.base + height ∧
      (factorialAfter 23).stack.size = (factorialAfter 23).frame.base + height := by
  have hcompile : compile factorialProgram = .ok factorialCode := rfl
  refine ⟨hcompile, by decide +kernel, by decide +kernel, by decide +kernel, by decide +kernel,
    by decide +kernel, ?_⟩
  exact stackHeight_of_compile hcompile (steps_factorialAfter (by decide))
    (steps_factorialAfter (by decide)) (by decide +kernel) (by decide +kernel)

/-- **Only calls can make a compiled program run forever.** Whenever an activation has the turn again,
it stands in the same block above the same base, at a greater offset; so it carries out no
instruction twice. A run that makes no more calls from some step on ends, and a program without
applications ends within as many steps as its main block has bytes, and one to notice it. -/
theorem offsets_increase_of_compile (hcompile : compile program = .ok b) :
    (∀ k m, Steps k (Machine.start b) m → ∀ j m', SameActivation (j + 1) m m' →
      m'.frame.code = m.frame.code ∧ m'.frame.base = m.frame.base ∧ m.frame.ip < m'.frame.ip) ∧
    (∀ n, (∀ k m, n ≤ k → Steps k (Machine.start b) m →
        m.frame.code.fetch m.frame.ip ≠ .instr .call) →
      ∃ fuel, ((Machine.start b).runAtFuel fuel).isFinished = true) ∧
    ((∀ s f a, .apply s f a ∉ Program.subterms program) →
      ((Machine.start b).runAtFuel (b.main.size + 1)).isFinished = true) := by
  obtain ⟨c, hcompiled⟩ := compiled_of_compile hcompile
  refine ⟨fun k m hsteps j m' hsame => ?_, fun n hcalls => ?_, fun happly => ?_⟩
  · obtain ⟨-, ip, hlt, hframe⟩ := hsame.frame_eq hcompiled.safeAt (hcompiled.safe hsteps)
    rw [hframe]
    exact ⟨rfl, rfl, hlt⟩
  · cases hfinished : ((Machine.start b).runAtFuel n).isFinished with
    | true => exact ⟨n, hfinished⟩
    | false =>
      have hsteps := Machine.steps_state_runAtFuel hfinished
      have hends := (hcompiled.safe hsteps).isFinished_of_no_call hcompiled.safeAt
        fun j m₁ hj => hcalls (n + j) m₁ (Nat.le_add_right n j) (hsteps.trans hj)
      rw [← Machine.runAtFuel_of_steps hsteps] at hends
      exact ⟨_, hends⟩
  · have hnone := hcompiled.emits.call_notMem happly
    have hends := (Machine.safe_start b hcompiled.main_eq).isFinished_of_no_call hcompiled.safeAt
      fun j m hsteps => (hcompiled.safe hsteps).fetch_ne_call
        (Machine.Safe.callers_eq_nil hcompiled.safeAt hnone hsteps
          (Machine.safe_start b hcompiled.main_eq) rfl) hnone
    exact hends

/-- A program without applications: a function that is compared and negated but never called. -/
def uncalledFunction : Program :=
  [.define default "f" (.lambda default "x" (.name default "x")),
    .puts default (.ifElse default
      (.binary default .equals (.name default "f") (.name default "f"))
      (.unary default .negate (.integer default 7)) (.integer default 8)),
    .expression (.unary default .negate (.name default "f"))]

/-- The bytecode of `uncalledFunction`. -/
def uncalledFunctionCode : Bytecode :=
  ⟨.ofInstrs [.constant 0, .setGlobal 0, .getGlobal 0, .getGlobal 0, .equal, .jumpIfNotTrue 18,
      .constant 1, .negate, .jump 20, .constant 2, .pop, .getGlobal 0, .negate, .pop],
    #[.function (.ofInstrs [.getLocal 0, .return_]), .integer 7, .integer 8]⟩

/-- An activation of the factorial before and after it calls itself, the end of its run behind the
last call, and the end of a program without applications. -/
theorem offsets_increase_factorialProgram :
    SameActivation 8 (factorialAfter 14) (factorialAfter 22) ∧
    (factorialAfter 14).frame.ip < (factorialAfter 22).frame.ip ∧
    (∀ k m, 29 ≤ k → Steps k (Machine.start factorialCode) m →
      m.frame.code.fetch m.frame.ip ≠ .instr .call) ∧
    (∃ fuel, ((Machine.start factorialCode).runAtFuel fuel).isFinished = true) ∧
    (∀ s f a, .apply s f a ∉ Program.subterms uncalledFunction) ∧
    ((Machine.start uncalledFunctionCode).runAtFuel 26).isFinished = true := by
  obtain ⟨hactivation, hcalls, -⟩ :=
    offsets_increase_of_compile (show compile factorialProgram = .ok factorialCode from rfl)
  obtain ⟨-, -, hends⟩ :=
    offsets_increase_of_compile (show compile uncalledFunction = .ok uncalledFunctionCode from rfl)
  have hsteps : Steps 14 (Machine.start factorialCode) (factorialAfter 14) :=
    steps_factorialAfter (by decide)
  have hsame : SameActivation 8 (factorialAfter 14) (factorialAfter 22) := by
    have hdepth : ∀ j ≤ 8, (factorialAfter 14).depth ≤ (factorialAfter (14 + j)).depth := by
      decide +kernel
    refine ⟨Machine.steps_of_runAtFuel_outOfFuel (by decide +kernel), by decide +kernel, ?_⟩
    intro j m₁ hj hsteps₁
    have hle := hdepth j hj
    rwa [factorialAfter, factorialAfter, hsteps.state_runAtFuel,
      (hsteps.trans hsteps₁).state_runAtFuel] at hle
  have hnone (k : Nat) (m : Machine) (hk : 29 ≤ k)
      (hsteps : Steps k (Machine.start factorialCode) m) :
      m.frame.code.fetch m.frame.ip ≠ .instr .call := by
    have hfetch : ∀ k < 39, 29 ≤ k → (factorialAfter k).frame.code.fetch (factorialAfter k).frame.ip
        ≠ .instr .call := by decide +kernel
    have hended : ((Machine.start factorialCode).runAtFuel 39).isFinished = true := by decide +kernel
    have hlt : k < 39 := by
      refine Nat.lt_of_not_le fun hge => ?_
      have hrun := Machine.isFinished_of_steps hsteps
      rw [Machine.runAtFuel_mono hge hended, hended] at hrun
      cases hrun
    have hnext := hfetch k hlt hk
    rwa [factorialAfter, hsteps.state_runAtFuel] at hnext
  have happly (s : Span) (f a : Expr) : .apply s f a ∉ Program.subterms uncalledFunction := by
    simp [Program.subterms, uncalledFunction, Stmt.value, Expr.subterms]
  exact ⟨hsame, (hactivation 14 _ hsteps 7 _ hsame).2.2, hnone, hcalls 29 hnone, happly,
    hends happly⟩

end Duet
