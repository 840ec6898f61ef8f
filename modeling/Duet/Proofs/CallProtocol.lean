import Duet.Proofs.InstructionRules
import Duet.Proofs.MachineSafety
import Duet.Proofs.WellFormedBlocks

/-!
# From a call to its return

A call leaves its argument on the stack, and the function works above it. When the function returns,
one value stands where the argument stood, and the caller goes on behind the call as if nothing had
happened. The machine does not check any of this: a function could take values from below its
argument, and a `return` cuts the stack wherever the base of its frame says. Compiled code keeps to
the protocol.

* `DuringCall m₁ n m`: the machine has come from `m₁`, the first state of a called function, to `m`,
  and the function has not returned. Which `return` belongs to which call is decided by counting
  alone; frames and bases have no part in it.
* `Safe.base_add_uses_le`: an instruction of a function uses only values above the argument.
* `Nested`: what the bases of the frames have to do with each other. With it `Protected` is kept by
  every step until the function returns (`Protected.of_duringCall`).
* `callProtocol_of_compile`: the protocol, for every call of every accepted program.
-/

namespace Duet

/-! ## What a function uses -/

/-- An instruction that is safe above some locals uses only values above them. -/
theorem Instr.SafeAt.uses_le {K : Array Constant} {slots locals : Nat} {body pre rest : List Instr}
    {i : Instr} (h : i.SafeAt K slots locals body pre rest) (hlocals : locals ≠ 0)
    (hle : locals ≤ height locals pre) : locals + i.uses ≤ height locals pre := by
  cases i with
  | arith _ | equal | notEqual | call | not | negate => exact h
  | jumpIfNotTrue t => exact h.1
  | pop | setGlobal _ => exact absurd h.1 hlocals
  | return_ => exact h.elim
  | _ => exact hle

namespace Machine

variable {K : Array Constant} {main : List Instr} {m m' m₁ : Machine} {i : Instr}

/-- Inside a function, the argument is not among the values that the next instruction uses. -/
theorem Safe.base_add_uses_le (hs : Safe K main m) (hcallers : m.callers ≠ [])
    (hfetch : m.frame.code.fetch m.frame.ip = .instr i) :
    m.frame.base + 1 + i.uses ≤ m.stack.size := by
  obtain ⟨n, limit, -, hframes⟩ := hs
  generalize m.frame = f at hframes hfetch ⊢
  generalize m.callers = cs at hframes hcallers
  generalize m.stack.size = size at hframes ⊢
  cases hframes with
  | main _ _ _ => exact absurd rfl hcallers
  | @function body pre rest base caller callers hbal hsplit _ =>
    have hwhole : body ++ [.return_] = pre ++ (rest ++ [.return_]) := by
      rw [hsplit, List.append_assoc]
    obtain ⟨rest', hrest⟩ := Code.exists_cons_of_fetch hwhole hfetch
    cases rest with
    | nil =>
      -- the body is at its end: its value stands on the argument, and the function returns
      obtain ⟨rfl, -⟩ := List.cons.inj hrest
      obtain rfl : body = pre := by rw [hsplit, List.append_nil]
      rw [hbal.height_eq, Nat.add_assoc]
      exact Nat.le_refl _
    | cons j rest =>
      obtain ⟨rfl, -⟩ := List.cons.inj hrest
      obtain ⟨hle, hsafe⟩ := hbal.safeAt [] [] (Nat.le_refl 1) rfl rfl
        (show n = n + setCount [] from rfl) pre rest j hsplit
      simp only [List.nil_append, List.append_nil] at hle hsafe
      have huses := hsafe.uses_le Nat.one_ne_zero hle
      show base + 1 + j.uses ≤ base + height 1 pre
      omega

/-! ## While a function runs -/

/-- The machine has come from `m₁`, the first state of a called function, to the last state, and the
function has not returned. The number counts the calls made since then that have not returned. A
`return` that finds it at zero belongs to the function itself, and is not followed any further. -/
inductive DuringCall (m₁ : Machine) : Nat → Machine → Prop
  | enter : DuringCall m₁ 0 m₁
  | plain {n : Nat} {m m' : Machine} {i : Instr} : DuringCall m₁ n m →
      m.frame.code.fetch m.frame.ip = .instr i → i ≠ .call → i ≠ .return_ →
      m.step = .running m' → DuringCall m₁ n m'
  | call {n : Nat} {m m' : Machine} : DuringCall m₁ n m →
      m.frame.code.fetch m.frame.ip = .instr .call → m.step = .running m' →
      DuringCall m₁ (n + 1) m'
  | return_ {n : Nat} {m m' : Machine} : DuringCall m₁ (n + 1) m →
      m.frame.code.fetch m.frame.ip = .instr .return_ → m.step = .running m' →
      DuringCall m₁ n m'

/-- The function that was entered at `m₁` carries out its own `return` and leaves the last state. -/
def ReturnsTo (m₁ m' : Machine) : Prop :=
  ∃ m, DuringCall m₁ 0 m ∧ m.frame.code.fetch m.frame.ip = .instr .return_ ∧ m.step = .running m'

/-- As long as a function has not returned, it runs: no state of a run is left out. -/
theorem DuringCall.of_steps {n k : Nat} (hsteps : Steps k m m') (h : DuringCall m₁ n m) :
    (∃ n', DuringCall m₁ n' m') ∨ ∃ j m₂, ReturnsTo m₁ m₂ ∧ Steps j m₂ m' := by
  induction hsteps generalizing n with
  | refl m => exact .inl ⟨n, h⟩
  | @cons k m m₂ m' hstep hrest ih =>
    obtain ⟨i, hfetch, -⟩ := step_eq_running_iff.mp hstep
    by_cases hcall : i = .call
    · subst hcall
      exact ih (.call h hfetch hstep)
    · by_cases hreturn : i = .return_
      · subst hreturn
        cases n with
        | zero => exact .inr ⟨k, m₂, ⟨m, h, hfetch, hstep⟩, hrest⟩
        | succ n => exact ih (.return_ h hfetch hstep)
      · exact ih (.plain h hfetch hcall hreturn hstep)

/-! ## The bases of frames -/

/-- Directly above the frames `outer` stands a frame with the given base, and above it `n` more with
greater ones. -/
inductive Nested (base : Nat) (outer : List Frame) : Nat → Frame → List Frame → Prop
  | bottom {f : Frame} : f.base = base → Nested base outer 0 f outer
  | above {n : Nat} {f caller : Frame} {callers : List Frame} : base < f.base →
      Nested base outer n caller callers → Nested base outer (n + 1) f (caller :: callers)

namespace Nested

variable {base n : Nat} {outer callers : List Frame} {f f' : Frame}

/-- The frame that runs does not begin below the base. -/
theorem le_base (h : Nested base outer n f callers) : base ≤ f.base := by
  cases h with
  | bottom hbase => exact Nat.le_of_eq hbase.symm
  | above hlt _ => exact Nat.le_of_lt hlt

/-- Where there are outer frames, the frame that runs has a caller. -/
theorem callers_ne_nil (h : Nested base outer n f callers) (houter : outer ≠ []) :
    callers ≠ [] := by
  cases h with
  | bottom _ => exact houter
  | above _ _ => exact List.cons_ne_nil _ _

/-- The frame that runs may be exchanged for one with the same base. -/
theorem of_base_eq (h : Nested base outer n f callers) (heq : f'.base = f.base) :
    Nested base outer n f' callers := by
  cases h with
  | bottom hbase => exact .bottom (heq.trans hbase)
  | above hlt hrest => exact .above (heq ▸ hlt) hrest

end Nested

/-- While a function runs that was called on the stack `below ++ [argument]`, this part of the stack
is as it was, and the frames above those of its caller begin above it. -/
structure Protected (below : List Value) (argument : Value) (outer : List Frame) (n : Nat)
    (m : Machine) : Prop where
  frames : Nested below.length outer n m.frame m.callers
  stack : m.stack.toList.take (below.length + 1) = below ++ [argument]

namespace Protected

variable {below : List Value} {argument : Value} {outer : List Frame} {n : Nat}

/-- The stack begins with the protected part. -/
theorem exists_above (h : Protected below argument outer n m) :
    ∃ above, m.stack.toList = below ++ argument :: above := by
  refine ⟨m.stack.toList.drop (below.length + 1), ?_⟩
  calc m.stack.toList
    _ = m.stack.toList.take (below.length + 1) ++ m.stack.toList.drop (below.length + 1) :=
        (List.take_append_drop _ _).symm
    _ = below ++ argument :: m.stack.toList.drop (below.length + 1) := by
        rw [h.stack, List.append_assoc, List.singleton_append]

/-- To go to another offset changes nothing that is protected. -/
theorem goto (h : Protected below argument outer n m) (ip : Nat) :
    Protected below argument outer n (m.goto ip) :=
  ⟨h.frames.of_base_eq rfl, h.stack⟩

/-- The next instruction uses nothing of the protected part of the stack. -/
theorem add_uses_le (h : Protected below argument outer n m) (houter : outer ≠ [])
    (hs : Safe K main m) (hfetch : m.frame.code.fetch m.frame.ip = .instr i) :
    below.length + 1 + i.uses ≤ m.stack.size := by
  have huses := hs.base_add_uses_le (h.frames.callers_ne_nil houter) hfetch
  have hbase := h.frames.le_base
  omega

/-- Neither a call nor a `return`: the frame that runs has the same base afterwards. -/
theorem plain (h : Protected below argument outer n m) (hexec : Executes m i m')
    (huses : below.length + 1 + i.uses ≤ m.stack.size) (hcall : i ≠ .call)
    (hreturn : i ≠ .return_) : Protected below argument outer n m' := by
  refine ⟨?_, (hexec.take_stack hreturn huses).trans h.stack⟩
  rcases hexec.frames with ⟨hframe, hcallers⟩ | ⟨t, -, hframe, hcallers⟩ | ⟨hi, -⟩ | ⟨hi, -⟩
  · rw [hframe, hcallers]
    exact h.frames
  · rw [hframe, hcallers]
    exact h.frames.of_base_eq rfl
  · exact absurd hi hcall
  · exact absurd hi hreturn

/-- A further call: the new frame begins above the protected part. -/
theorem call (h : Protected below argument outer n m) (hexec : Executes m .call m')
    (huses : below.length + 1 + Instr.call.uses ≤ m.stack.size) :
    Protected below argument outer (n + 1) m' := by
  refine ⟨?_, (hexec.take_stack (by decide) huses).trans h.stack⟩
  cases hexec with
  | @call s v j code hs =>
    rw [hs, Array.size_push, Array.size_push] at huses
    exact .above (Nat.le_of_add_le_add_right huses) h.frames

/-- The `return` of a function that was called meanwhile cuts the stack above the protected part. -/
theorem return_ (h : Protected below argument outer (n + 1) m) (hexec : Executes m .return_ m')
    (huses : below.length + 1 + Instr.return_.uses ≤ m.stack.size) :
    Protected below argument outer n m' := by
  obtain ⟨hframes, hstack⟩ := h
  cases hexec with
  | @return_ s v caller callers hcallers hs =>
    rw [hcallers] at hframes
    rw [hs, Array.size_push] at huses
    have hroom : below.length + 1 ≤ s.size := Nat.le_of_succ_le_succ huses
    cases hframes with
    | above hlt hrest =>
      refine ⟨hrest, ?_⟩
      have hcut : (s.shrink m.frame.base).toList = s.toList.take m.frame.base :=
        Array.toList_shrink
      have hsize : below.length + 1 ≤ (s.shrink m.frame.base).size := by
        rw [Array.size_shrink]
        exact Nat.le_min.mpr ⟨hlt, hroom⟩
      rw [take_push hsize, hcut, List.take_take, Nat.min_eq_left hlt, ← hstack, hs,
        take_push hroom]

/-- The `return` of the function itself puts one value in the place of the argument. -/
theorem returned (h : Protected below argument outer 0 m) (hexec : Executes m .return_ m')
    (huses : below.length + 1 + Instr.return_.uses ≤ m.stack.size) :
    (∃ v, m'.stack.toList = below ++ [v]) ∧ m'.frame :: m'.callers = outer := by
  obtain ⟨hframes, hstack⟩ := h
  cases hexec with
  | @return_ s v caller callers hcallers hs =>
    rw [hs, Array.size_push] at huses
    have hroom : below.length + 1 ≤ s.size := Nat.le_of_succ_le_succ huses
    generalize hf : m.frame = f at hframes ⊢
    generalize hcs : m.callers = cs at hframes hcallers
    cases hframes with
    | bottom hbase =>
      refine ⟨⟨v, ?_⟩, hcallers.symm⟩
      rw [hs, take_push hroom] at hstack
      have hbelow : s.toList.take below.length = below := by
        calc s.toList.take below.length
          _ = (s.toList.take (below.length + 1)).take below.length := by
              rw [List.take_take, Nat.min_eq_left (Nat.le_succ _)]
          _ = below := by rw [hstack, List.take_left]
      rw [Array.toList_push, Array.toList_shrink, hbase, hbelow]

end Protected

/-! ## The protocol -/

section protocol

variable {below : List Value} {argument : Value} {outer : List Frame} {n : Nat}

/-- What is protected when a function is entered stays so until it returns. -/
theorem Protected.of_duringCall
    (hmain : ∀ pre rest i, main = pre ++ i :: rest → i.SafeAt K 0 0 main pre rest)
    (houter : outer ≠ []) (hs : Safe K main m₁) (h : Protected below argument outer 0 m₁)
    (hrun : DuringCall m₁ n m) : Safe K main m ∧ Protected below argument outer n m := by
  induction hrun with
  | enter => exact ⟨hs, h⟩
  | plain _ hfetch hcall hreturn hstep ih =>
    obtain ⟨hsafe, hprot⟩ := ih
    obtain ⟨j, hfetch', hexec⟩ := step_eq_running_iff.mp hstep
    obtain rfl := Code.Fetch.instr.inj (hfetch.symm.trans hfetch')
    exact ⟨hsafe.of_steps hmain (.one hstep),
      (hprot.goto _).plain hexec (hprot.add_uses_le houter hsafe hfetch) hcall hreturn⟩
  | call _ hfetch hstep ih =>
    obtain ⟨hsafe, hprot⟩ := ih
    obtain ⟨j, hfetch', hexec⟩ := step_eq_running_iff.mp hstep
    obtain rfl := Code.Fetch.instr.inj (hfetch.symm.trans hfetch')
    exact ⟨hsafe.of_steps hmain (.one hstep),
      (hprot.goto _).call hexec (hprot.add_uses_le houter hsafe hfetch)⟩
  | return_ _ hfetch hstep ih =>
    obtain ⟨hsafe, hprot⟩ := ih
    obtain ⟨j, hfetch', hexec⟩ := step_eq_running_iff.mp hstep
    obtain rfl := Code.Fetch.instr.inj (hfetch.symm.trans hfetch')
    exact ⟨hsafe.of_steps hmain (.one hstep),
      (hprot.goto _).return_ hexec (hprot.add_uses_le houter hsafe hfetch)⟩

/-- A step that fails while the function runs has not touched the protected part either. -/
theorem Protected.of_failed (h : Protected below argument outer n m) (houter : outer ≠ [])
    (hs : Safe K main m) {e : Error} (hfail : m.step = .failed e m') :
    Protected below argument outer n m' := by
  rcases step_eq_failed hfail with rfl | ⟨i, hfetch, s, rfl, hprefix, hsize⟩
  · exact h
  · refine ⟨(h.goto _).frames, ?_⟩
    have huses := h.add_uses_le houter hs hfetch
    have hroom : below.length + 1 ≤ s.toList.length := by
      change m.stack.size ≤ s.size + i.uses at hsize
      have hlength : s.toList.length = s.size := Array.length_toList
      omega
    obtain ⟨gone, hgone⟩ := hprefix
    have hstack : m.stack.toList.take (below.length + 1) = below ++ [argument] := h.stack
    change s.toList ++ gone = m.stack.toList at hgone
    rw [← hgone, List.take_append_of_le_length hroom] at hstack
    exact hstack

/-- The first state of a called function. -/
theorem executes_call_function {s : Array Value} {j : Nat} {code : Code}
    (hfetch : m.frame.code.fetch m.frame.ip = .instr .call)
    (hstack : m.stack = (s.push argument).push (.function j code)) :
    ∃ m₁, m.step = .running m₁ ∧ m₁.stack = s.push argument ∧
      m₁.frame = ⟨code, 0, s.size⟩ ∧
      m₁.callers = { m.frame with ip := m.frame.ip + 1 } :: m.callers :=
  ⟨_, step_eq_running_iff.mpr ⟨.call, hfetch, .call hstack⟩, rfl, rfl, rfl⟩

end protocol

end Machine

/-- **The protocol of calls.** When a function is called on the stack `below ++ [argument, f]`, it is
entered on `below ++ [argument]`. In every state until it returns, and also in one that is left by an
error, the stack still begins with these values, however many calls are made in between. When its own
`return` is carried out, one value stands where the argument stood, the frames are those from before
the call, and the caller goes on right behind it. -/
theorem callProtocol_of_compile {program : Program} {b : Bytecode}
    (hcompile : compile program = .ok b) {k : Nat} {m : Machine}
    (hsteps : Machine.Steps k (Machine.start b) m)
    (hcall : m.frame.code.fetch m.frame.ip = .instr .call) {below : List Machine.Value}
    {argument : Machine.Value} {index : Nat} {code : Code}
    (hstack : m.stack.toList = below ++ [argument, .function index code]) :
    ∃ m₁, m.step = .running m₁ ∧ m₁.stack.toList = below ++ [argument] ∧
      m₁.frame = ⟨code, 0, below.length⟩ ∧
      m₁.callers = { m.frame with ip := m.frame.ip + 1 } :: m.callers ∧
      (∀ n m', Machine.DuringCall m₁ n m' →
        (∃ above, m'.stack.toList = below ++ argument :: above) ∧
        ∀ e m'', m'.step = .failed e m'' →
          ∃ above, m''.stack.toList = below ++ argument :: above) ∧
      (∀ m', Machine.ReturnsTo m₁ m' →
        (∃ result, m'.stack.toList = below ++ [result]) ∧
        m'.frame = { m.frame with ip := m.frame.ip + 1 } ∧ m'.callers = m.callers) ∧
      ∀ j m', Machine.Steps j m₁ m' →
        (∃ n, Machine.DuringCall m₁ n m') ∨
          ∃ i m₂, Machine.ReturnsTo m₁ m₂ ∧ Machine.Steps i m₂ m' := by
  obtain ⟨c, hcompiled⟩ := compiled_of_compile hcompile
  have hstack' : m.stack = (below.toArray.push argument).push (.function index code) := by
    apply Array.toList_inj.mp
    simp [hstack]
  obtain ⟨m₁, hstep, hs₁, hf₁, hc₁⟩ := Machine.executes_call_function hcall hstack'
  have hsafe : Machine.Safe b.constants c m₁ :=
    (Machine.safe_start b hcompiled.main_eq).of_steps hcompiled.safeAt (hsteps.trans (.one hstep))
  have houter : m₁.callers ≠ [] := by
    rw [hc₁]
    exact List.cons_ne_nil _ _
  -- right after the call the frame of the function is the only one above its caller
  have hprot : Machine.Protected below argument m₁.callers 0 m₁ := by
    refine ⟨.bottom ?_, ?_⟩
    · rw [hf₁, List.size_toArray]
    · rw [hs₁, Array.toList_push, List.take_of_length_le (by simp)]
  have hrun {n : Nat} {m' : Machine} (hm' : Machine.DuringCall m₁ n m') :=
    Machine.Protected.of_duringCall hcompiled.safeAt houter hsafe hprot hm'
  refine ⟨m₁, hstep, by simp [hs₁], by simp [hf₁], hc₁, ?_, ?_, ?_⟩
  · intro n m' hm'
    obtain ⟨hsafe', hprot'⟩ := hrun hm'
    refine ⟨hprot'.exists_above, fun e m'' hfail => ?_⟩
    exact (hprot'.of_failed houter hsafe' hfail).exists_above
  · rintro m' ⟨m₂, hm₂, hfetch, hreturn⟩
    obtain ⟨hsafe', hprot'⟩ := hrun hm₂
    obtain ⟨i, hfetch', hexec⟩ := Machine.step_eq_running_iff.mp hreturn
    obtain rfl := Code.Fetch.instr.inj (hfetch.symm.trans hfetch')
    obtain ⟨hresult, hframes⟩ :=
      (hprot'.goto _).returned hexec (hprot'.add_uses_le houter hsafe' hfetch)
    rw [hc₁] at hframes
    obtain ⟨hframe, hcallers⟩ := List.cons.inj hframes
    exact ⟨hresult, hframe, hcallers⟩
  · intro j m' hm'
    exact Machine.DuringCall.of_steps hm' .enter

/-- A function that calls another one twice, called in the middle of a sum. -/
def nestedCalls : Program :=
  [.define default "twice" (.lambda default "x"
      (.binary default (.arith .add) (.name default "x") (.name default "x"))),
    .define default "four" (.lambda default "y" (.apply default (.name default "twice")
      (.apply default (.name default "twice") (.name default "y")))),
    .puts default (.binary default (.arith .add) (.integer default 1)
      (.apply default (.name default "four") (.integer default 3)))]

/-- The code of the outer function in `nestedCalls`. -/
def fourCode : Code :=
  .ofInstrs [.getLocal 0, .getGlobal 0, .call, .getGlobal 0, .call, .return_]

/-- The bytecode of `nestedCalls`. -/
def nestedCallsCode : Bytecode :=
  ⟨.ofInstrs [.constant 0, .setGlobal 0, .constant 1, .setGlobal 1, .constant 2, .constant 3,
      .getGlobal 1, .call, .arith .add, .pop],
    #[.function (.ofInstrs [.getLocal 0, .getLocal 0, .arith .add, .return_]), .function fourCode,
      .integer 1, .integer 3]⟩

/-- The machine that runs `nestedCalls`, at the top level behind both definitions. -/
def nestedCallsAt (ip : Nat) (stack : Array Machine.Value) : Machine where
  pool := nestedCallsCode.constants
  stack := stack
  globals := #[some (.function 0 (.ofInstrs [.getLocal 0, .getLocal 0, .arith .add, .return_])),
    some (.function 1 fourCode)]
  frame := ⟨nestedCallsCode.main, ip, 0⟩
  callers := []
  shown := #[]

/-- The outer function is called above the first operand of the sum. It returns: a state behind the
call is reached in which its argument is gone, which is not so while it runs. -/
theorem callProtocol_nestedCalls :
    compile nestedCalls = .ok nestedCallsCode ∧
    Machine.Steps 7 (Machine.start nestedCallsCode)
      (nestedCallsAt 14 #[.integer 1, .integer 3, .function 1 fourCode]) ∧
    ∃ m₁ m₂, (nestedCallsAt 14 #[.integer 1, .integer 3, .function 1 fourCode]).step = .running m₁ ∧
      Machine.ReturnsTo m₁ m₂ ∧ (∃ result, m₂.stack.toList = [.integer 1, result]) ∧
      m₂.frame = ⟨nestedCallsCode.main, 15, 0⟩ ∧ m₂.callers = [] := by
  have hcompile : compile nestedCalls = .ok nestedCallsCode := rfl
  have hsteps : Machine.Steps 7 (Machine.start nestedCallsCode)
      (nestedCallsAt 14 #[.integer 1, .integer 3, .function 1 fourCode]) :=
    Machine.steps_of_runAtFuel_outOfFuel (by decide +kernel)
  have hreturned : Machine.Steps 15
      (nestedCallsAt 14 #[.integer 1, .integer 3, .function 1 fourCode])
      (nestedCallsAt 15 #[.integer 1, .integer 12]) :=
    Machine.steps_of_runAtFuel_outOfFuel (by decide +kernel)
  have hstack : (nestedCallsAt 14 #[.integer 1, .integer 3, .function 1 fourCode]).stack.toList
      = [.integer 1] ++ [.integer 3, .function 1 fourCode] := rfl
  obtain ⟨m₁, hstep, -, -, -, hduring, hreturns, hcover⟩ :=
    callProtocol_of_compile hcompile hsteps (by decide +kernel) hstack
  cases hreturned with
  | cons hstep' hrest =>
    obtain rfl := Machine.Step.running.inj (hstep.symm.trans hstep')
    rcases hcover _ _ hrest with ⟨n, hn⟩ | ⟨j, m₂, hm₂, -⟩
    · obtain ⟨⟨above, habove⟩, -⟩ := hduring n _ hn
      simp [nestedCallsAt] at habove
    · exact ⟨hcompile, hsteps, m₁, m₂, hstep, hm₂, hreturns m₂ hm₂⟩

end Duet
