import Duet.Proofs.Simulation

/-!
# The two engines agree

An accepted program means the same to both engines, apart from two differences that the source
language leaves open. A function reads the globals of the time of its call in the evaluator, and
the slots of the time of its compilation on the machine; the two are the same as long as the name
it reads is not defined anew later. And functions have different identities, which only a
comparison of two functions can tell.

* `Program.functionReads` and `Program.scopeAfter` state the first condition: a global that is
  read inside a function stands for the last definition of its name.
* `programComparedAtFuel` states the second: it collects what is compared during a run.
* `programSimulates_runAtFuel`: statement by statement, the machine follows the evaluator.
* `engines_agree`: one engine ends if the other does, they show the same values, and they end in
  the same way.
-/

namespace Duet

open Evaluator (Env Outcome evalAtFuel comparedAtFuel NoFunctionPair noFunctionPair_append)
open Machine (Steps)

/-! ## What can be seen of a run -/

/-- What can be seen of a value in either engine: all but which function it is. -/
inductive Outline where
  | integer (value : Int)
  | boolean (value : Bool)
  | nil
  | text (value : String)
  | function
deriving DecidableEq, Repr

/-- What can be seen of a value of the evaluator. -/
def Evaluator.Value.outline : Evaluator.Value → Outline
  | .integer n => .integer n
  | .boolean b => .boolean b
  | .nil => .nil
  | .text s => .text s
  | .closure .. => .function

/-- What can be seen of a value of the machine. -/
def Machine.Value.outline : Machine.Value → Outline
  | .integer n => .integer n
  | .boolean b => .boolean b
  | .nil => .nil
  | .function .. => .function

/-- Values that agree look alike. -/
theorem Agree.outline_eq {K : Array Constant} {Q : String → Nat → Prop} {T : SlotTable}
    {v : Evaluator.Value} {v' : Machine.Value} (h : Agree K Q T v v') : v'.outline = v.outline := by
  obtain ⟨a, rfl, rfl⟩ | ⟨b, rfl, rfl⟩ | ⟨rfl, rfl⟩ | ⟨_, _, _, _, _, _, rfl, rfl⟩ := h.cases <;> rfl

/-- Both runs ended well, or both failed with the same code, which is that of an operand of the
wrong type, of a division by zero, or of a call of a value that is no function. -/
def EndAlike : Machine.Run → Evaluator.Ending → Prop
  | .halted _, .finished => True
  | .failed e' _, .failed e => e'.code = e.code ∧ e.IsFault
  | _, _ => False

/-! ## Sessions -/

namespace Evaluator

/-- The session after a statement whose value is known. -/
def Session.after (s : Session) (stmt : Stmt) (v : Value) (fresh : Nat) : Session :=
  match stmt with
  | .define _ x _ => Session.setGlobal { s with fresh := fresh } x v
  | .puts .. | .expression _ => { s with fresh := fresh }

/-- The values that a statement shows once its value is known. -/
def shownBy (stmt : Stmt) (v : Value) : List Value :=
  match stmt with
  | .define .. => []
  | .puts .. | .expression _ => [v]

/-- A program whose first statement has a value goes on behind it, and shows what the statement
shows first. -/
theorem runAtFuel_cons_of_value {fuel fresh : Nat} {stmt : Stmt} {stmts : Program} {s : Session}
    {v : Value} (h : evalAtFuel s.globals fuel stmt.value [] s.fresh = .value v fresh) :
    runAtFuel fuel (stmt :: stmts) s = { runAtFuel fuel stmts (s.after stmt v fresh) with
      shown := shownBy stmt v ++ (runAtFuel fuel stmts (s.after stmt v fresh)).shown } := by
  rw [runAtFuel, h]
  cases stmt <;> rfl

/-- The pairs of values that `=` and `~=` are applied to while a program runs. -/
def programComparedAtFuel (fuel : Nat) : Program → Session → List (Value × Value)
  | [], _ => []
  | stmt :: stmts, s =>
    comparedAtFuel s.globals fuel stmt.value [] s.fresh ++
      match evalAtFuel s.globals fuel stmt.value [] s.fresh with
      | .value v fresh => programComparedAtFuel fuel stmts (s.after stmt v fresh)
      | _ => []

/-- The name that is set has the new value. -/
theorem lookup_setGlobal_self (s : Session) (x : String) (v : Value) :
    (s.setGlobal x v).globals.lookup x = some v := by
  simp [Session.setGlobal]

/-- Names that are kept in an environment keep their values. -/
theorem lookup_filter_ne {x y : String} (h : y ≠ x) (env : Env) :
    (env.filter (·.1 ≠ x)).lookup y = env.lookup y := by
  induction env with
  | nil => rfl
  | cons q env ih =>
    obtain ⟨z, v⟩ := q
    by_cases hz : z = x
    · subst hz
      rw [List.filter_cons_of_neg (by simp), ih, List.lookup_cons, beq_false_of_ne h]
    · rw [List.filter_cons_of_pos (by simpa using hz), List.lookup_cons, List.lookup_cons, ih]

/-- Setting a name changes no other. -/
theorem lookup_setGlobal_of_ne (s : Session) {x y : String} (v : Value) (h : y ≠ x) :
    (s.setGlobal x v).globals.lookup y = s.globals.lookup y := by
  rw [Session.setGlobal, List.lookup_cons, beq_false_of_ne h]
  exact lookup_filter_ne h s.globals

end Evaluator

/-! ## More globals -/

/-- A definition is never undone: later ones have higher slots. -/
theorem le_of_resolve?_scopeAfter {stmts : Program} {T : SlotTable} {y : String} {i j : Nat}
    (hT : T.Bounded) (hj : T.slot? y = some j)
    (hi : (Program.scopeAfter stmts (.global T)).resolve? y = some ⟨.global, i⟩) : j ≤ i := by
  induction stmts generalizing T j with
  | nil =>
    have hslot : T.slot? y = some i := by
      simpa [Program.scopeAfter, Scope.resolve?] using hi
    rw [hj] at hslot
    exact Nat.le_of_eq (Option.some.inj hslot)
  | cons stmt stmts ih =>
    cases stmt with
    | puts s e => exact ih hT hj hi
    | expression e => exact ih hT hj hi
    | define s x e =>
      by_cases hx : y = x
      · subst hx
        have := ih (hT.define y) (T.slot?_define_self y) hi
        exact Nat.le_trans (Nat.le_of_lt (hT y j hj)) this
      · exact ih (hT.define x) ((T.slot?_define_of_ne hx).trans hj) hi

/-- As long as there are slots enough, every slot in use is one of these. -/
theorem SlotTable.Bounded.lt_maxSlots {T : SlotTable} (hT : T.Bounded) (hcount : T.count ≤ maxSlots)
    (x : String) (i : Nat) (h : T.slot? x = some i) : i < maxSlots :=
  Nat.lt_of_lt_of_le (hT x i h) hcount

/-- Values go on matching after a definition, if functions read only last definitions. -/
theorem Agree.define {K : Array Constant} {Q : String → Nat → Prop} {T : SlotTable} {x : String}
    {v : Evaluator.Value} {v' : Machine.Value} (h : Agree K Q T v v') (hT : T.Bounded)
    (hlast : ∀ i, Q x i → T.count ≤ i) : Agree K Q (T.define x) v v' := by
  obtain ⟨a, rfl, rfl⟩ | ⟨b, rfl, rfl⟩ | ⟨rfl, rfl⟩ | ⟨_, param, _, env, _, _, rfl, rfl⟩ := h.cases
  · exact rfl
  · exact rfl
  · trivial
  · obtain ⟨p, c, p', he, hcode⟩ := h
    refine ⟨p, c, p', he.mono fun qs y i hqs hread => ?_, hcode⟩
    have hinside : qs ≠ [] := by
      rintro rfl
      simp at hqs
    have hne : y ≠ x := by
      rintro rfl
      have := hlast i (hread.2 hinside)
      have := hT y i hread.1
      omega
    exact ⟨(T.slot?_define_of_ne hne).trans hread.1, hread.2⟩

/-! ## Programs -/

/-- The machine does what the evaluator did when it ran a program with fuel `n`. -/
def ProgramSimulates (n : Nat) (m : Machine) (run : Evaluator.Run) : Prop :=
  let shows (m' : Machine) : Prop :=
    m'.shown.toList.map (·.outline) = m.shown.toList.map (·.outline) ++ run.shown.map (·.outline)
  match run.ending with
  | .finished => ∃ k m', Steps k m m' ∧ m'.step = .halted m' ∧ shows m'
  | .failed e => e.IsFault ∧ ∃ k m₁ e' m', Steps k m m₁ ∧ m₁.step = .failed e' m' ∧
      e'.code = e.code ∧ shows m'
  | .outOfFuel => ∃ k m', n ≤ k ∧ Steps k m m'

section programs

variable {K : Array Constant} {Q : String → Nat → Prop} {T : SlotTable} {n : Nat}
  {session : Evaluator.Session}

/-- Steps taken before a program, in which the values `vs` are shown. -/
theorem ProgramSimulates.prepend {m m₁ : Machine} {run : Evaluator.Run} {j : Nat}
    {vs : List Evaluator.Value} (h : ProgramSimulates n m₁ run) (hsteps : Steps j m m₁)
    (hshown : m₁.shown.toList.map (·.outline)
      = m.shown.toList.map (·.outline) ++ vs.map (·.outline)) :
    ProgramSimulates n m { run with shown := vs ++ run.shown } := by
  obtain ⟨session, shown, ending⟩ := run
  cases ending with
  | finished =>
    obtain ⟨k, m', hk, hhalt, hsh⟩ := h
    refine ⟨j + k, m', hsteps.trans hk, hhalt, ?_⟩
    simp [hsh, hshown]
  | failed e =>
    obtain ⟨hfault, k, m₂, e', m', hk, hfail, hcode, hsh⟩ := h
    refine ⟨hfault, j + k, m₂, e', m', hsteps.trans hk, hfail, hcode, ?_⟩
    simp [hsh, hshown]
  | outOfFuel =>
    obtain ⟨k, m', hk, hs⟩ := h
    exact ⟨j + k, m', by omega, hsteps.trans hs⟩

/-- A statement in front of a program. If its value is known, the machine has to get from there to
a state in which it follows the rest. -/
theorem programSimulates_cons {m : Machine} {stmt : Stmt} {stmts : Program}
    {after : Machine.Value → Machine}
    (hvalue : Simulates K Q T n m after
      (evalAtFuel session.globals n stmt.value [] session.fresh))
    (hrest : ∀ v fresh v', evalAtFuel session.globals n stmt.value [] session.fresh
        = .value v fresh → Agree K Q T v v' →
      ∃ m₁, (after v').step = .running m₁ ∧
        m₁.shown.toList.map (·.outline)
          = m.shown.toList.map (·.outline) ++ (Evaluator.shownBy stmt v).map (·.outline) ∧
        ProgramSimulates n m₁ (Evaluator.runAtFuel n stmts (session.after stmt v fresh))) :
    ProgramSimulates n m (Evaluator.runAtFuel n (stmt :: stmts) session) := by
  cases hout : evalAtFuel session.globals n stmt.value [] session.fresh with
  | value v fresh =>
    rw [hout] at hvalue
    obtain ⟨k, v', hv, hk⟩ := hvalue
    obtain ⟨m₁, hstep, hshown, hsim⟩ := hrest v fresh v' hout hv
    rw [Evaluator.runAtFuel_cons_of_value hout]
    exact hsim.prepend (hk.trans (.one hstep)) hshown
  | error e =>
    rw [hout] at hvalue
    obtain ⟨hfault, k, m₁, e', m', hk, hfail, hcode, hshown⟩ := hvalue
    rw [Evaluator.runAtFuel, hout]
    exact ⟨hfault, k, m₁, e', m', hk, hfail, hcode, by simp [hshown]⟩
  | outOfFuel =>
    rw [hout] at hvalue
    rw [Evaluator.runAtFuel, hout]
    exact hvalue

/-- What is compared by a statement and by those that follow it. -/
theorem noFunctionPair_cons {stmt : Stmt} {stmts : Program}
    (h : NoFunctionPair (Evaluator.programComparedAtFuel n (stmt :: stmts) session)) :
    NoFunctionPair (comparedAtFuel session.globals n stmt.value [] session.fresh) ∧
      ∀ v fresh, evalAtFuel session.globals n stmt.value [] session.fresh = .value v fresh →
        NoFunctionPair
          (Evaluator.programComparedAtFuel n stmts (session.after stmt v fresh)) := by
  obtain ⟨hstmt, hrest⟩ := noFunctionPair_append.mp h
  refine ⟨hstmt, fun v fresh hv => ?_⟩
  simpa only [hv] using hrest

/-- A value that is shown: it leaves the stack. -/
theorem Ready.pop {globals : Env} {pre c c' : List Instr} {m : Machine}
    (hr : Ready K Q T globals [] pre (c ++ .pop :: c') [] m) (v : Machine.Value) :
    ∃ m₁, (m.landed (codeSize (pre ++ c)) v).step = .running m₁ ∧ m₁.shown = m.shown.push v ∧
      m₁.callers = m.callers ∧ Ready K Q T globals [] (pre ++ c ++ [.pop]) c' [] m₁ := by
  refine ⟨_, (hr.second v).step_of_exec (Machine.exec_pop (s := m.stack) rfl), rfl, rfl, ?_⟩
  exact ⟨hr.pool_eq, hr.globals, nofun, hr.code_eq.trans (by simp), rfl⟩

/-- A value that is stored: it leaves the stack and becomes the next global. -/
theorem Ready.setGlobal {pre c c' : List Instr} {m : Machine} {x : String} {fresh : Nat}
    (hr : Ready K Q T session.globals [] pre (c ++ .setGlobal T.count.toUInt8 :: c') [] m)
    (hT : T.Bounded) (hslot : T.count < maxSlots) (hlast : ∀ i, Q x i → T.count ≤ i)
    {v : Evaluator.Value} {v' : Machine.Value} (hv : Agree K Q (T.define x) v v') :
    ∃ m₁, (m.landed (codeSize (pre ++ c)) v').step = .running m₁ ∧ m₁.shown = m.shown ∧
      m₁.callers = m.callers ∧
      Ready K Q (T.define x) (Evaluator.Session.setGlobal { session with fresh := fresh } x v).globals
        [] (pre ++ c ++ [.setGlobal T.count.toUInt8]) c' [] m₁ := by
  refine ⟨_, (hr.second v').step_of_exec (Machine.exec_setGlobal (s := m.stack) rfl), rfl, rfl, ?_⟩
  refine ⟨hr.pool_eq, ?_, nofun, hr.code_eq.trans (by simp), rfl⟩
  intro y i hi
  rw [toNat_toUInt8 hslot]
  by_cases hy : y = x
  · subst hy
    rw [SlotTable.slot?_define_self, Option.some.injEq] at hi
    subst hi
    exact ⟨v, v', Evaluator.lookup_setGlobal_self _ y v, Machine.global?_setSlot_self m T.count v',
      hv⟩
  · rw [SlotTable.slot?_define_of_ne T hy] at hi
    obtain ⟨w, w', hw, hw', hagree⟩ := hr.globals y i hi
    have hne : i ≠ T.count := Nat.ne_of_lt (hT y i hi)
    refine ⟨w, w', ?_, ?_, hagree.define hT hlast⟩
    · exact (Evaluator.lookup_setGlobal_of_ne _ v hy).trans hw
    · exact (Machine.global?_setSlot_of_ne m v' hne).trans hw'

/-- A statement that shows its value, in front of a program that the machine follows. -/
theorem programSimulates_shown {stmt : Stmt} {stmts : Program} {o p p' : Nat}
    {pre c c' : List Instr} {m : Machine} (hslots : ∀ x i, T.slot? x = some i → i < maxSlots)
    (hstmt : ∀ v, Evaluator.shownBy stmt v = [v])
    (he : Emits K (T.Reads Q) [] stmt.value o p c p')
    (hr : Ready K Q T session.globals [] pre (c ++ .pop :: c') [] m) (ho : codeSize pre = o)
    (hcmp : NoFunctionPair (comparedAtFuel session.globals n stmt.value [] session.fresh))
    (hrest : ∀ v fresh m₁, evalAtFuel session.globals n stmt.value [] session.fresh
        = .value v fresh → m₁.callers = m.callers →
      Ready K Q T session.globals [] (pre ++ c ++ [.pop]) c' [] m₁ →
      ProgramSimulates n m₁ (Evaluator.runAtFuel n stmts (session.after stmt v fresh))) :
    ProgramSimulates n m (Evaluator.runAtFuel n (stmt :: stmts) session) := by
  refine programSimulates_cons (followsAtFuel hslots n he hr.first ho hcmp) ?_
  intro v fresh v' hout hv
  obtain ⟨m₁, hstep, hshown, hcallers, hready⟩ := hr.pop v'
  refine ⟨m₁, hstep, ?_, hrest v fresh m₁ hout hcallers hready⟩
  simp [hshown, hstmt, hv.outline_eq]

/-- A definition, in front of a program that the machine follows. The value may match already
without the name that is being defined, or only with it. -/
theorem programSimulates_define {T' : SlotTable} {s : Span} {x : String} {e : Expr}
    {stmts : Program} {pre c c' : List Instr} {m : Machine}
    (hr : Ready K Q T session.globals [] pre (c ++ .setGlobal T.count.toUInt8 :: c') [] m)
    (hT : T.Bounded) (hslot : T.count < maxSlots) (hlast : ∀ i, Q x i → T.count ≤ i)
    (hvalue : Simulates K Q T' n m (m.landed (codeSize (pre ++ c)))
      (evalAtFuel session.globals n e [] session.fresh))
    (hagree : ∀ v v', Agree K Q T' v v' → Agree K Q (T.define x) v v')
    (hrest : ∀ v fresh m₁, evalAtFuel session.globals n e [] session.fresh = .value v fresh →
      m₁.callers = m.callers →
      Ready K Q (T.define x) (session.after (.define s x e) v fresh).globals []
        (pre ++ c ++ [.setGlobal T.count.toUInt8]) c' [] m₁ →
      ProgramSimulates n m₁
        (Evaluator.runAtFuel n stmts (session.after (.define s x e) v fresh))) :
    ProgramSimulates n m (Evaluator.runAtFuel n (.define s x e :: stmts) session) := by
  refine programSimulates_cons hvalue ?_
  intro v fresh v' hout hv
  obtain ⟨m₁, hstep, hshown, hcallers, hready⟩ :=
    hr.setGlobal hT hslot hlast (hagree v v' hv)
  refine ⟨m₁, hstep, ?_, hrest v fresh m₁ hout hcallers hready⟩
  simp [hshown, Evaluator.shownBy]

/-- A function expression is a value at once. -/
theorem simulates_lambda {T' : SlotTable} {e : Expr} {o p p' fresh : Nat} {globals : Env}
    {pre c post : List Instr} {m : Machine} (hl : e.isLambda = true)
    (he : Emits K (T'.Reads Q) [] e o p c p') (hr : Ready K Q T globals [] pre c post m) :
    Simulates K Q T' n m (m.landed (codeSize (pre ++ c))) (evalAtFuel globals n e [] fresh) := by
  cases n with
  | zero => exact ⟨0, m, Nat.le_refl 0, .refl m⟩
  | succ n =>
    cases he with
    | @lambda _ _ _ _ _ _ c p' hbody hp hk =>
      rw [← toNat_toUInt8 hp] at hk
      exact simulates_value (.function _ _) ⟨p, c, p', hbody, rfl⟩ (hr.step_constant hk)
    | _ => simp [Expr.isLambda] at hl

/-- **The machine follows the evaluator** through a program. Between statements both have the same
globals, and every function reads only globals that stand for the last definition of their name. -/
theorem programSimulates_runAtFuel {program : Program} {o p : Nat} {pre c : List Instr}
    {m : Machine} (hp : ProgramEmits K Q T program o p c) (hT : T.Bounded)
    (hcount : T.count ≤ maxSlots)
    (hlast : ∀ x i, Q x i →
      (Program.scopeAfter program (.global T)).resolve? x = some ⟨.global, i⟩)
    (hr : Ready K Q T session.globals [] pre c [] m) (hcallers : m.callers = [])
    (ho : codeSize pre = o)
    (hcmp : NoFunctionPair (Evaluator.programComparedAtFuel n program session)) :
    ProgramSimulates n m (Evaluator.runAtFuel n program session) := by
  induction hp generalizing session pre m with
  | nil =>
    refine ⟨0, m, .refl m, ?_, by simp [Evaluator.runAtFuel]⟩
    have hcode := hr.code_eq
    rw [List.append_nil, List.append_nil] at hcode
    rw [Machine.step_at_end hcode hr.ip_eq, hcallers]
    rfl
  | @puts T _ _ _ _ _ c _ _ he _ ih | @expression T _ _ _ _ c _ _ he _ ih =>
    obtain ⟨hstmt, hcmp⟩ := noFunctionPair_cons hcmp
    refine programSimulates_shown (hT.lt_maxSlots hcount) (fun _ => rfl) he hr ho hstmt ?_
    intro v fresh m₁ hout hcallers₁ hready
    exact ih hT hcount hlast hready (hcallers₁.trans hcallers) (codeSize_statement ho)
      (hcmp v fresh hout)
  | @define T _ x _ _ _ _ c _ _ hl he hslot _ ih =>
    obtain ⟨hstmt, hcmp⟩ := noFunctionPair_cons hcmp
    -- reads inside functions stand for the last definition of a name, which is not an earlier one
    have hx (i : Nat) (hq : Q x i) : T.count ≤ i :=
      le_of_resolve?_scopeAfter (hT.define x) (T.slot?_define_self x) (hlast x i hq)
    refine programSimulates_define hr hT hslot hx
      (followsAtFuel (hT.lt_maxSlots hcount) n he hr.first ho hstmt)
      (fun v v' hv => hv.define hT hx) ?_
    intro v fresh m₁ hout hcallers₁ hready
    exact ih (hT.define x) hslot hlast hready (hcallers₁.trans hcallers) (codeSize_statement ho)
      (hcmp v fresh hout)
  | @defineFunction T _ x _ _ _ _ c _ _ hl he hslot _ ih =>
    obtain ⟨-, hcmp⟩ := noFunctionPair_cons hcmp
    have hx (i : Nat) (hq : Q x i) : T.count ≤ i :=
      le_of_resolve?_scopeAfter (hT.define x) (T.slot?_define_self x) (hlast x i hq)
    refine programSimulates_define hr hT hslot hx (simulates_lambda hl he hr.first)
      (fun v v' hv => hv) ?_
    intro v fresh m₁ hout hcallers₁ hready
    exact ih (hT.define x) hslot hlast hready (hcallers₁.trans hcallers) (codeSize_statement ho)
      (hcmp v fresh hout)

end programs

/-! ## Runs from the start -/

section runs

variable {program : Program} {b : Bytecode}

/-- From the start of an accepted program, the machine follows the evaluator. -/
theorem programSimulates_of_compile (hcompile : compile program = .ok b)
    (hreads : ∀ r ∈ Program.functionReads program .empty,
      (Program.scopeAfter program .empty).resolve? r.1 = some ⟨.global, r.2⟩)
    {n : Nat} (hcmp : NoFunctionPair (Evaluator.programComparedAtFuel n program .start)) :
    ProgramSimulates n (.start b) (Evaluator.runAtFuel n program .start) := by
  obtain ⟨c, hp, hmain⟩ := programEmits_of_compile
    (Q := fun x i => (Program.scopeAfter program .empty).resolve? x = some ⟨.global, i⟩)
    hcompile hreads
  have hr (Q : String → Nat → Prop) : Ready b.constants Q .empty [] [] [] c [] (.start b) := by
    refine ⟨rfl, ?_, nofun, ?_, rfl⟩
    · intro x i h
      simp [SlotTable.empty, SlotTable.slot?] at h
    · rw [List.append_nil]
      exact hmain
  exact programSimulates_runAtFuel hp SlotTable.bounded_empty (Nat.zero_le _) (fun _ _ h => h)
    (hr _) rfl rfl hcmp

/-- What the end of the evaluator says about the end of the machine. -/
theorem ProgramSimulates.ends {n : Nat} {m : Machine} {run : Evaluator.Run}
    (h : ProgramSimulates n m run) (hend : run.ending ≠ .outOfFuel) :
    ∃ k, (m.runAtFuel k).isFinished = true ∧ EndAlike (m.runAtFuel k) run.ending ∧
      (m.runAtFuel k).state.shown.toList.map (·.outline)
        = m.shown.toList.map (·.outline) ++ run.shown.map (·.outline) := by
  obtain ⟨session, shown, ending⟩ := run
  cases ending with
  | finished =>
    obtain ⟨k, m', hk, hhalt, hshown⟩ := h
    refine ⟨k + 1, ?_⟩
    rw [Machine.runAtFuel_eq_halted hk hhalt (Nat.lt_succ_self k)]
    exact ⟨rfl, trivial, hshown⟩
  | failed e =>
    obtain ⟨hfault, k, m₁, e', m', hk, hfail, hcode, hshown⟩ := h
    refine ⟨k + 1, ?_⟩
    rw [Machine.runAtFuel_eq_failed hk hfail (Nat.lt_succ_self k)]
    exact ⟨rfl, ⟨hcode, hfault⟩, hshown⟩
  | outOfFuel => exact absurd rfl hend

/-- **The engines agree.** Let a program be accepted in which every global that is read inside a
function stands for the last definition of its name, and let its evaluation never compare two
functions. Then the machine ends if and only if the evaluator does, and if they end, both have
shown the same values and both have ended well or failed with the same code. -/
theorem engines_agree (hcompile : compile program = .ok b)
    (hreads : ∀ r ∈ Program.functionReads program .empty,
      (Program.scopeAfter program .empty).resolve? r.1 = some ⟨.global, r.2⟩)
    (hcompared : ∀ fuel, ∀ pair ∈ Evaluator.programComparedAtFuel fuel program .start,
      ¬(pair.1.isFunction = true ∧ pair.2.isFunction = true)) :
    ((∃ n, ((Machine.start b).runAtFuel n).isFinished = true) ↔
      ∃ k, (Evaluator.runAtFuel k program .start).ending ≠ .outOfFuel) ∧
    ∀ n k, ((Machine.start b).runAtFuel n).isFinished = true →
      (Evaluator.runAtFuel k program .start).ending ≠ .outOfFuel →
      ((Machine.start b).runAtFuel n).state.shown.toList.map (·.outline)
        = (Evaluator.runAtFuel k program .start).shown.map (·.outline) ∧
      EndAlike ((Machine.start b).runAtFuel n) (Evaluator.runAtFuel k program .start).ending := by
  have hsim (n : Nat) := programSimulates_of_compile hcompile hreads (hcompared n)
  refine ⟨⟨?_, ?_⟩, ?_⟩
  · -- a lack of fuel `n` would let the machine take `n` steps
    rintro ⟨n, hn⟩
    refine ⟨n, fun hout => ?_⟩
    have h := hsim n
    rw [ProgramSimulates, hout] at h
    obtain ⟨k, m', hk, hsteps⟩ := h
    obtain ⟨j, rfl⟩ := Nat.exists_eq_add_of_le hk
    obtain ⟨m₁, hfirst⟩ := hsteps.first
    rw [Machine.isFinished_of_steps hfirst] at hn
    exact Bool.false_ne_true hn
  · rintro ⟨k, hk⟩
    obtain ⟨n, hn, -, -⟩ := (hsim k).ends hk
    exact ⟨n, hn⟩
  · intro n k hn hk
    obtain ⟨j, hj, halike, hshown⟩ := (hsim k).ends hk
    have hsame : (Machine.start b).runAtFuel n = (Machine.start b).runAtFuel j := by
      rcases Nat.le_total n j with hle | hle
      · exact (Machine.runAtFuel_mono hle hn).symm
      · exact Machine.runAtFuel_mono hle hj
    rw [hsame]
    exact ⟨hshown, halike⟩

end runs

/-- A factorial that is shown once and then divided by. -/
def factorialProgram : Program :=
  [.define default "f" (.lambda default "n"
      (.ifElse default
        (.binary default .equals (.name default "n") (.integer default 0))
        (.integer default 1)
        (.binary default (.arith .multiply) (.name default "n")
          (.apply default (.name default "f")
            (.binary default (.arith .subtract) (.name default "n") (.integer default 1)))))),
    .puts default (.apply default (.name default "f") (.integer default 1)),
    .puts default (.binary default (.arith .divide) (.integer default 1)
      (.binary default (.arith .subtract) (.apply default (.name default "f") (.integer default 0))
        (.integer default 1)))]

/-- The bytecode of `factorialProgram`. -/
def factorialCode : Bytecode :=
  ⟨.ofInstrs [.constant 3, .setGlobal 0, .constant 4, .getGlobal 0, .call, .pop, .constant 5,
      .constant 6, .getGlobal 0, .call, .constant 7, .arith .subtract, .arith .divide, .pop],
    #[.integer 0, .integer 1, .integer 1,
      .function (.ofInstrs [.getLocal 0, .constant 0, .equal, .jumpIfNotTrue 13, .constant 1, .jump 24,
        .getLocal 0, .getLocal 0, .constant 2, .arith .subtract, .getGlobal 0, .call,
        .arith .multiply, .return_]),
      .integer 1, .integer 1, .integer 0, .integer 1]⟩

/-- The factorial compares only integers, however many calls may be nested. -/
theorem noFunctionPair_factorialProgram (fuel : Nat) :
    ∀ pair ∈ Evaluator.programComparedAtFuel fuel factorialProgram .start,
      ¬(pair.1.isFunction = true ∧ pair.2.isFunction = true) := by
  match fuel with
  | 0 => decide
  | 1 => decide
  | 2 => decide
  | fuel + 3 =>
    have hpairs : Evaluator.programComparedAtFuel (fuel + 3) factorialProgram .start
        = [(.integer 1, .integer 0), (.integer 0, .integer 0), (.integer 0, .integer 0)] := rfl
    rw [hpairs]
    decide

/-- The factorial satisfies what the agreement asks for; both engines show its value and end with
the division by zero. -/
theorem engines_agree_factorialProgram :
    compile factorialProgram = .ok factorialCode ∧
    (∀ r ∈ Program.functionReads factorialProgram .empty,
      (Program.scopeAfter factorialProgram .empty).resolve? r.1 = some ⟨.global, r.2⟩) ∧
    (∀ fuel, ∀ pair ∈ Evaluator.programComparedAtFuel fuel factorialProgram .start,
      ¬(pair.1.isFunction = true ∧ pair.2.isFunction = true)) ∧
    ((Machine.start factorialCode).runAtFuel 50).state.shown.toList.map (·.outline)
      = (Evaluator.runAtFuel 3 factorialProgram .start).shown.map (·.outline) ∧
    EndAlike ((Machine.start factorialCode).runAtFuel 50)
      (Evaluator.runAtFuel 3 factorialProgram .start).ending := by
  have hcompile : compile factorialProgram = .ok factorialCode := rfl
  have hreads : ∀ r ∈ Program.functionReads factorialProgram .empty,
      (Program.scopeAfter factorialProgram .empty).resolve? r.1 = some ⟨.global, r.2⟩ := by decide
  refine ⟨hcompile, hreads, noFunctionPair_factorialProgram, ?_⟩
  exact (engines_agree hcompile hreads noFunctionPair_factorialProgram).2 50 3 (by decide +kernel)
    (by decide)

end Duet
