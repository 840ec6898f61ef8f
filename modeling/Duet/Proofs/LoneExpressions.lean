import Duet.Proofs.StatementRuns

/-!
# Expressions by themselves

An expression can be compiled in two ways: by itself, so that its value is left on the stack, and as
the only statement of a program, so that its value is handed over and the stack is left empty. The
code differs by the `pop` at its end, and by nothing else. A jump to the end of the shorter block
makes the machine halt, and the same jump in the longer block leads to the `pop`; up to there the two
runs are the same.

* `compile_expression_eq`: the bytecode of the statement, from that of the expression.
* `HaltsWith` and `Fails`: how a run can end. A machine ends its run in one way only
  (`runAtFuel_unique`).
* `LoneCode`: bytecode whose main block leaves one value. Its run hands over nothing, and if it halts,
  it has left that value (`LoneCode.of_halted`).
* `LoneCode.haltsWith_iff` and `LoneCode.fails_iff`: such a run, and the run with a `pop` behind it.
* `compileExpr_agrees`: the two ways to compile an expression agree.
-/

namespace Duet

/-! ## The two ways to compile an expression -/

/-- The bytecode with a `pop` at the end of its main block. -/
def Bytecode.thenPop (b : Bytecode) : Bytecode :=
  { b with main := ⟨b.main.bytes.push Opcode.pop.byte⟩ }

/-- The main block is the old one with a `pop` behind it. -/
theorem Bytecode.main_thenPop {b : Bytecode} {c : List Instr} (h : b.main = .ofInstrs c) :
    b.thenPop.main = .ofInstrs (c ++ [.pop]) := by
  show (⟨b.main.bytes.push Opcode.pop.byte⟩ : Code) = _
  rw [h, Code.ofInstrs, List.push_toArray, Code.ofInstrs, List.flatMap_append]
  rfl

theorem Bytecode.getElem?_thenPop (b : Bytecode) (j : Nat) (v : Constant)
    (h : b.constants[j]? = some v) : b.thenPop.constants[j]? = some v :=
  h

/-- An expression is compiled as a statement exactly if it is compiled by itself, and to the same code
with a `pop` behind it; else both fail in the same way. -/
theorem compile_expression_eq (e : Expr) :
    compile [.expression e] = (compileExpr e).map Bytecode.thenPop := by
  rcases hf : e.emit .empty 0 0 with ⟨c, k, _ | err⟩
  · have hpop := Bytecode.main_thenPop (b := ⟨.ofInstrs c, k.toArray⟩) rfl
    simp [compile, Session.compile, Session.start, Session.bytecode, Program.emit, Stmt.emit,
      Emission.andThen, Emission.instr, compileExpr, hf, Except.map, Bytecode.thenPop, ← hpop]
  · simp [compile, Session.compile, Session.start, Program.emit, Stmt.emit, Emission.andThen,
      compileExpr, hf, Except.map]

namespace Machine

/-! ## How runs end -/

/-- The machine halts with the given stack when the given values have been handed over. -/
def HaltsWith (m : Machine) (stack shown : Array Value) : Prop :=
  ∃ fuel m', m.runAtFuel fuel = .halted m' ∧ m'.stack = stack ∧ m'.shown = shown

/-- The machine fails with the given error. -/
def Fails (m : Machine) (e : Error) : Prop :=
  ∃ fuel m', m.runAtFuel fuel = .failed e m'

/-- A machine ends its run in one way only. -/
theorem runAtFuel_unique {n k : Nat} {m : Machine} {r r' : Run} (hn : m.runAtFuel n = r)
    (hk : m.runAtFuel k = r') (hr : r.isFinished = true) (hr' : r'.isFinished = true) : r = r' := by
  subst hn hk
  rcases Nat.le_total n k with hle | hle
  · exact (runAtFuel_mono hle hr).symm
  · exact runAtFuel_mono hle hr'

section safe

variable {K : Array Constant} {main after : List Instr} {b : Bytecode} {m m' : Machine} {n : Nat}
  {e : Error}

variable (hmain : ∀ pre rest i, main = pre ++ i :: rest → i.SafeAt K 0 0 main pre rest)
  (hpool : ∀ (j : Nat) c, K[j]? = some c → b.constants[j]? = some c)
  (hb : b.main = .ofInstrs (main ++ after))
include hmain hpool hb

/-- A failure of the shorter program is one of the longer program. -/
theorem Safe.fails_embed (hs : Safe K main m) (h : m.Fails e) : (m.embed b).Fails e := by
  obtain ⟨fuel, m₂, hrun⟩ := h
  obtain ⟨k, m₁, hsteps, hfail⟩ := steps_of_runAtFuel_failed hrun
  have hs₁ : Safe K main m₁ := hs.of_steps hmain hsteps
  rcases hs₁.exists_fetch hmain with ⟨i, hfetch⟩ | hhalt
  · have hfail' : (m₁.embed b).step = .failed e (m₂.embed b) := by
      rw [hs₁.step_embed hmain hpool hb hfetch, hfail]
      rfl
    exact ⟨k + 1, m₂.embed b, runAtFuel_eq_failed (hs.steps_embed hmain hpool hb hsteps) hfail'
      (Nat.lt_succ_self k)⟩
  · rw [hhalt] at hfail
    cases hfail

/-- The shorter program does not run for longer. -/
theorem Safe.isFinished_of_embed (hs : Safe K main m)
    (hrun : ((m.embed b).runAtFuel n).isFinished = true) : (m.runAtFuel n).isFinished = true := by
  by_contra hgoes
  have hsteps := steps_state_runAtFuel (Bool.not_eq_true _ ▸ hgoes)
  rw [isFinished_of_steps (hs.steps_embed hmain hpool hb hsteps)] at hrun
  cases hrun

end safe

end Machine

open Machine (Steps Safe)

/-! ## Code that leaves one value -/

/-- The main block leaves one value on the stack, and it neither stores nor hands over anything. -/
structure LoneCode (b : Bytecode) (c : List Instr) : Prop where
  main_eq : b.main = .ofInstrs c
  balanced : Balanced b.constants 0 0 0 0 c 1

/-- The code of an expression by itself leaves one value. -/
theorem loneCode_of_compileExpr {e : Expr} {b : Bytecode} (h : compileExpr e = .ok b) :
    ∃ c, LoneCode b c := by
  rcases hf : e.emit .empty 0 0 with ⟨c, k, _ | err⟩
  · rw [compileExpr, hf] at h
    obtain rfl := Except.ok.inj h
    have hK : PoolHas k.toArray 0 k := Compiled.poolHas ⟨.ofInstrs c, k.toArray⟩
    have he := emits_of_yields (T := .empty) (Q := fun _ _ => True) [] hf hK fun _ _ => trivial
    exact ⟨c, rfl, he.balanced SlotTable.bounded_empty (by simp) (Nat.le_refl 0)⟩
  · rw [compileExpr, hf] at h
    cases h

namespace LoneCode

variable {b : Bytecode} {c : List Instr} {k n : Nat} {m : Machine} {v : Machine.Value}
  {e : Machine.Error}

/-- Every instruction of the main block can be carried out. -/
theorem safeAt (h : LoneCode b c) (pre rest : List Instr) (i : Instr) (hc : c = pre ++ i :: rest) :
    i.SafeAt b.constants 0 0 c pre rest := by
  have hsafe := (h.balanced.safeAt [] [] (Nat.le_refl 0) rfl rfl rfl pre rest i hc).2
  simpa using hsafe

/-- The machine is safe all along the run. -/
theorem safe (h : LoneCode b c) (hsteps : Steps k (Machine.start b) m) : Safe b.constants c m :=
  (Machine.safe_start b h.main_eq).of_steps h.safeAt hsteps

/-- No instruction that the machine comes to ends a statement: none of the main block does, and none
of a function. -/
theorem closes_eq_false (h : LoneCode b c) (hs : Safe b.constants c m) {i : Instr}
    (hfetch : m.frame.code.fetch m.frame.ip = .instr i) : i.closes = false := by
  by_cases hcallers : m.callers = []
  · obtain ⟨pre, rest, hsplit, hframe, -⟩ := hs.exists_split hcallers
    rw [hframe] at hfetch
    obtain ⟨rest', rfl⟩ := Code.exists_cons_of_fetch hsplit hfetch
    exact h.balanced.closes_eq_false (hsplit ▸ List.mem_append_right pre List.mem_cons_self)
  · exact hs.closes_eq_false h.safeAt hcallers hfetch

/-- Nothing is handed over. -/
theorem shown_eq (h : LoneCode b c) (hsteps : Steps k (Machine.start b) m) : m.shown = #[] := by
  have hstep (m m' : Machine) (hm : Safe b.constants c m ∧ m.shown = #[])
      (hstep : m.step = .running m') : Safe b.constants c m' ∧ m'.shown = #[] := by
    obtain ⟨i, hfetch, hexec⟩ := Machine.step_eq_running_iff.mp hstep
    obtain ⟨hshown, -⟩ := hexec.keeps (h.closes_eq_false hm.1 hfetch)
    exact ⟨hm.1.of_steps h.safeAt (.one hstep), hshown.trans hm.2⟩
  exact (hsteps.preserves hstep ⟨Machine.safe_start b h.main_eq, rfl⟩).2

/-- When the run has halted, the machine has come to the end of the main block, and there is one
value. -/
theorem of_halted (h : LoneCode b c) (hrun : (Machine.start b).runAtFuel n = .halted m) :
    ∃ k v, Steps k (Machine.start b) m ∧ Machine.StandsBehind c c m ∧ m.stack = #[v] ∧
      m.shown = #[] := by
  obtain ⟨k, hsteps, hhalt⟩ := Machine.steps_of_runAtFuel_halted hrun
  obtain ⟨hcallers, hframe, hsize⟩ := (h.safe hsteps).of_halted hhalt
  rw [h.balanced.height_eq] at hsize
  obtain ⟨v, hv⟩ := Array.size_eq_one_iff.mp hsize
  exact ⟨k, v, hsteps, ⟨hcallers, hframe⟩, hv, h.shown_eq hsteps⟩

/-! ## With a `pop` behind it -/

/-- From the end of the shorter block, the longer run takes one more step, which hands the value
over. -/
theorem haltsWith_thenPop (h : LoneCode b c) (hrun : (Machine.start b).runAtFuel n = .halted m)
    (hv : m.stack = #[v]) : (Machine.start b.thenPop).HaltsWith #[] #[v] := by
  obtain ⟨k, w, hsteps, ⟨hcallers, hframe⟩, -, hshown⟩ := h.of_halted hrun
  have hmain := Bytecode.main_thenPop h.main_eq
  have hlong : Steps k (Machine.start b.thenPop) (m.embed b.thenPop) :=
    (Machine.safe_start b h.main_eq).steps_embed h.safeAt b.getElem?_thenPop hmain hsteps
  have hembed : (m.embed b.thenPop).frame = ⟨.ofInstrs (c ++ [.pop]), codeSize c, 0⟩ := by
    rw [Machine.embed, hcallers, hframe, ← hmain]
    rfl
  let popped : Machine := { (m.embed b.thenPop).goto (codeSize (c ++ [.pop])) with
    stack := #[], shown := #[v] }
  have hpop : (m.embed b.thenPop).step = .running popped := by
    have hstack : ((m.embed b.thenPop).goto (codeSize (c ++ [.pop]))).stack = #[].push v := hv
    rw [Machine.step_at_boundary (congrArg Machine.Frame.code hembed)
      (congrArg Machine.Frame.ip hembed), Machine.exec_pop hstack]
    show Machine.Step.running { popped with shown := m.shown.push v } = _
    rw [hshown]
    rfl
  have hend : Machine.StandsBehind (c ++ [.pop]) (c ++ [.pop]) popped := by
    refine ⟨?_, ?_⟩
    · show Machine.rebased _ m.callers = []
      rw [hcallers]
      rfl
    · show Machine.Frame.mk (m.embed b.thenPop).frame.code _ (m.embed b.thenPop).frame.base = _
      rw [hembed]
  exact ⟨k + 1 + 1, popped, Machine.runAtFuel_eq_halted (hlong.trans (.one hpop)) hend.step_eq
    (Nat.lt_succ_self _), rfl, rfl⟩

/-- A failure comes before the `pop`, and is the same with it. -/
theorem fails_thenPop (h : LoneCode b c) (hfails : (Machine.start b).Fails e) :
    (Machine.start b.thenPop).Fails e :=
  (Machine.safe_start b h.main_eq).fails_embed h.safeAt b.getElem?_thenPop
    (Bytecode.main_thenPop h.main_eq) hfails

/-- If the longer run ends, the shorter one does, and no later. -/
theorem isFinished_of_thenPop (h : LoneCode b c)
    (hrun : ((Machine.start b.thenPop).runAtFuel n).isFinished = true) :
    ((Machine.start b).runAtFuel n).isFinished = true :=
  (Machine.safe_start b h.main_eq).isFinished_of_embed h.safeAt b.getElem?_thenPop
    (Bytecode.main_thenPop h.main_eq) hrun

/-- If the longer run halts, so does the shorter one, and the value that it leaves is the one that is
handed over. -/
theorem of_halted_thenPop (h : LoneCode b c)
    (hrun : (Machine.start b.thenPop).runAtFuel n = .halted m) :
    ∃ v, (Machine.start b).HaltsWith #[v] #[] ∧ m.stack = #[] ∧ m.shown = #[v] := by
  have hfinished := h.isFinished_of_thenPop (n := n) (by rw [hrun]; rfl)
  cases hshort : (Machine.start b).runAtFuel n with
  | halted m₁ =>
    obtain ⟨-, v, -, -, hstack, hshown⟩ := h.of_halted hshort
    obtain ⟨k, m₂, hlong, hstack', hshown'⟩ := h.haltsWith_thenPop hshort hstack
    cases Machine.runAtFuel_unique hrun hlong rfl rfl
    exact ⟨v, ⟨n, m₁, hshort, hstack, hshown⟩, hstack', hshown'⟩
  | failed e m₁ =>
    obtain ⟨k, m₂, hlong⟩ := h.fails_thenPop ⟨n, m₁, hshort⟩
    cases Machine.runAtFuel_unique hrun hlong rfl rfl
  | outOfFuel m₁ =>
    rw [hshort] at hfinished
    cases hfinished

/-- The shorter run leaves a value exactly if the longer one hands it over. -/
theorem haltsWith_iff (h : LoneCode b c) :
    (Machine.start b).HaltsWith #[v] #[] ↔ (Machine.start b.thenPop).HaltsWith #[] #[v] := by
  constructor
  · rintro ⟨n, m, hrun, hstack, -⟩
    exact h.haltsWith_thenPop hrun hstack
  · rintro ⟨n, m, hrun, -, hshown⟩
    obtain ⟨w, hshort, -, hshown'⟩ := h.of_halted_thenPop hrun
    cases hshown.symm.trans hshown'
    exact hshort

/-- The shorter run fails exactly if the longer one does, and with the same error. -/
theorem fails_iff (h : LoneCode b c) :
    (Machine.start b).Fails e ↔ (Machine.start b.thenPop).Fails e := by
  refine ⟨h.fails_thenPop, ?_⟩
  rintro ⟨n, m, hrun⟩
  have hfinished := h.isFinished_of_thenPop (n := n) (by rw [hrun]; rfl)
  cases hshort : (Machine.start b).runAtFuel n with
  | halted m₁ =>
    obtain ⟨-, v, -, -, hstack, -⟩ := h.of_halted hshort
    obtain ⟨k, m₂, hlong, -, -⟩ := h.haltsWith_thenPop hshort hstack
    cases Machine.runAtFuel_unique hrun hlong rfl rfl
  | failed e' m₁ =>
    obtain ⟨k, m₂, hlong⟩ := h.fails_thenPop ⟨n, m₁, hshort⟩
    cases Machine.runAtFuel_unique hrun hlong rfl rfl
    exact ⟨n, m₁, hshort⟩
  | outOfFuel m₁ =>
    rw [hshort] at hfinished
    cases hfinished

end LoneCode

/-- **The two ways to compile an expression agree.** An expression can be compiled by itself exactly if
it can be compiled as the only statement of a program, and if not, the error is the same. The main
block of the statement is that of the expression and a `pop`, and the constants are the same. A run of
the first that halts leaves one value and hands over nothing; a run of the second that halts leaves
nothing and hands over one value; each happens exactly if the other does, with the same value. And the
one run fails exactly if the other does, with the same error. -/
theorem compileExpr_agrees (e : Expr) :
    ((∃ a, compileExpr e = .ok a) ↔ ∃ b, compile [.expression e] = .ok b) ∧
    (∀ err, compileExpr e = .error err ↔ compile [.expression e] = .error err) ∧
    ∀ a b, compileExpr e = .ok a → compile [.expression e] = .ok b →
      b.main.bytes = a.main.bytes.push Opcode.pop.byte ∧ b.constants = a.constants ∧
      (∀ fuel m, (Machine.start a).runAtFuel fuel = .halted m →
        ∃ v, m.stack = #[v] ∧ m.shown = #[]) ∧
      (∀ fuel m, (Machine.start b).runAtFuel fuel = .halted m →
        ∃ v, m.stack = #[] ∧ m.shown = #[v]) ∧
      (∀ v, (Machine.start a).HaltsWith #[v] #[] ↔ (Machine.start b).HaltsWith #[] #[v]) ∧
      ∀ err, (Machine.start a).Fails err ↔ (Machine.start b).Fails err := by
  rw [compile_expression_eq]
  cases hexpr : compileExpr e with
  | error err => simp [Except.map]
  | ok a =>
    refine ⟨⟨fun _ => ⟨a.thenPop, rfl⟩, fun _ => ⟨a, rfl⟩⟩, fun err => ⟨nofun, nofun⟩, ?_⟩
    rintro _ _ ⟨⟩ ⟨⟩
    obtain ⟨c, h⟩ := loneCode_of_compileExpr hexpr
    refine ⟨rfl, rfl, ?_, ?_, fun v => h.haltsWith_iff, fun err => h.fails_iff⟩
    · intro fuel m hrun
      obtain ⟨-, v, -, -, hstack, hshown⟩ := h.of_halted hrun
      exact ⟨v, hstack, hshown⟩
    · intro fuel m hrun
      obtain ⟨v, -, hstack, hshown⟩ := h.of_halted_thenPop hrun
      exact ⟨v, hstack, hshown⟩

/-- A conditional whose first arm calls a function that divides by its argument. The jump behind this
arm leads to the end of the block. -/
def guardedQuotient (divisor : Nat) : Expr :=
  .ifElse default (.binary default .notEquals (.integer default 7) (.boolean default true))
    (.apply default (.lambda default "n" (.binary default (.arith .divide) (.integer default 7)
      (.name default "n"))) (.integer default divisor))
    (.integer default 7)

/-- The bytecode of `guardedQuotient` by itself. -/
def guardedQuotientCode (divisor : Nat) : Bytecode :=
  ⟨.ofInstrs [.constant 0, .boolean true, .notEqual, .jumpIfNotTrue 15, .constant 1, .constant 3,
      .call, .jump 17, .constant 4],
    #[.integer 7, .integer divisor, .integer 7,
      .function (.ofInstrs [.constant 2, .getLocal 0, .arith .divide, .return_]), .integer 7]⟩

/-- One quotient is left on the stack or handed over; the other is a division by zero both times. -/
theorem compileExpr_agrees_guardedQuotient :
    compileExpr (guardedQuotient 2) = .ok (guardedQuotientCode 2) ∧
    (Machine.start (guardedQuotientCode 2)).HaltsWith #[.integer 3] #[] ∧
    (∃ b, compile [.expression (guardedQuotient 2)] = .ok b ∧
      b.main.bytes = (guardedQuotientCode 2).main.bytes.push Opcode.pop.byte ∧
      (Machine.start b).HaltsWith #[] #[.integer 3]) ∧
    compileExpr (guardedQuotient 0) = .ok (guardedQuotientCode 0) ∧
    (Machine.start (guardedQuotientCode 0)).Fails (.divisionByZero .div) ∧
    ∃ b, compile [.expression (guardedQuotient 0)] = .ok b ∧
      (Machine.start b).Fails (.divisionByZero .div) := by
  have htwo : compileExpr (guardedQuotient 2) = .ok (guardedQuotientCode 2) := rfl
  have hzero : compileExpr (guardedQuotient 0) = .ok (guardedQuotientCode 0) := rfl
  have hhalts : (Machine.start (guardedQuotientCode 2)).HaltsWith #[.integer 3] #[] :=
    ⟨13, ((Machine.start (guardedQuotientCode 2)).runAtFuel 13).state, by decide +kernel,
      by decide +kernel, by decide +kernel⟩
  have hfails : (Machine.start (guardedQuotientCode 0)).Fails (.divisionByZero .div) :=
    ⟨10, ((Machine.start (guardedQuotientCode 0)).runAtFuel 10).state, by decide +kernel⟩
  refine ⟨htwo, hhalts, ?_, hzero, hfails, ?_⟩
  · obtain ⟨hok, -, hboth⟩ := compileExpr_agrees (guardedQuotient 2)
    obtain ⟨b, hb⟩ := hok.mp ⟨_, htwo⟩
    obtain ⟨hbytes, -, -, -, hhalts', -⟩ := hboth _ b (htwo) hb
    exact ⟨b, hb, hbytes, (hhalts' _).mp hhalts⟩
  · obtain ⟨hok, -, hboth⟩ := compileExpr_agrees (guardedQuotient 0)
    obtain ⟨b, hb⟩ := hok.mp ⟨_, hzero⟩
    obtain ⟨-, -, -, -, -, hfails'⟩ := hboth _ b (hzero) hb
    exact ⟨b, hb, (hfails' _).mp hfails⟩

end Duet
