import Duet.Evaluator.Eval
import Duet.Proofs.MachineRuns
import Duet.Proofs.StackHeights

/-!
# The machine follows the evaluator on expressions

The code of an expression, run by the machine, does what the evaluator does with the expression.
The two are compared outcome by outcome:

* a value of the evaluator is matched by a value on top of the stack (`Agree`). Functions match if
  the code of the one was compiled from the body of the other;
* an error is matched by an error with the same code, with nothing shown in between;
* an evaluation that runs out of fuel `n` is matched by at least `n` steps. So an evaluation that
  never ends, whatever the fuel, is matched by a run that never ends.

`Simulates` states the three, `Simulates.andThen` joins two of them, and `simulates_evalAtFuel` is
the main statement. Functions are told apart by the place of their code on the machine and by the
time of their creation in the evaluator, so it assumes that no two functions are compared:
`comparedAtFuel` collects what is compared during an evaluation.
-/

namespace Duet

/-! ## What an evaluation compares -/

namespace Evaluator

/-- Whether a value is a function. -/
def Value.isFunction : Value → Bool
  | .closure .. => true
  | _ => false

/-- The pairs of values that `=` and `~=` are applied to while an expression is evaluated, given
how bodies are evaluated and what is compared in them. -/
def comparedWith (body : Expr → Env → Nat → Outcome)
    (bodyCompared : Expr → Env → Nat → List (Value × Value)) (globals : Env) :
    Expr → Env → Nat → List (Value × Value)
  | .integer .., _, _ | .text .., _, _ | .boolean .., _, _ | .nil _, _, _ | .name .., _, _
  | .lambda .., _, _ => []
  | .unary _ _ e, env, fresh => comparedWith body bodyCompared globals e env fresh
  | .binary _ op l r, env, fresh =>
    comparedWith body bodyCompared globals l env fresh ++
      match evalWith body globals l env fresh with
      | .value left fresh =>
        if (op = .and ∧ left.isTruthy = false) ∨ (op = .or ∧ left.isTruthy = true) then []
        else
          comparedWith body bodyCompared globals r env fresh ++
            match evalWith body globals r env fresh with
            | .value right _ => if op = .equals ∨ op = .notEquals then [(left, right)] else []
            | _ => []
      | _ => []
  | .ifThen _ c t, env, fresh =>
    comparedWith body bodyCompared globals c env fresh ++
      match evalWith body globals c env fresh with
      | .value condition fresh =>
        if condition.isTruthy then comparedWith body bodyCompared globals t env fresh else []
      | _ => []
  | .ifElse _ c t e, env, fresh =>
    comparedWith body bodyCompared globals c env fresh ++
      match evalWith body globals c env fresh with
      | .value condition fresh =>
        if condition.isTruthy then comparedWith body bodyCompared globals t env fresh
        else comparedWith body bodyCompared globals e env fresh
      | _ => []
  | .apply _ f a, env, fresh =>
    comparedWith body bodyCompared globals a env fresh ++
      match evalWith body globals a env fresh with
      | .value argument fresh =>
        comparedWith body bodyCompared globals f env fresh ++
          match evalWith body globals f env fresh with
          | .value (.closure _ param e outer) fresh =>
            bodyCompared e ((param, argument) :: outer) fresh
          | _ => []
      | _ => []

/-- The pairs of values that are compared while an expression is evaluated with the given fuel. -/
def comparedAtFuel (globals : Env) : Nat → Expr → Env → Nat → List (Value × Value)
  | 0, _, _, _ => []
  | n + 1, e, env, fresh =>
    comparedWith (evalAtFuel globals n) (comparedAtFuel globals n) globals e env fresh

/-- No two functions are among the compared pairs. -/
def NoFunctionPair (pairs : List (Value × Value)) : Prop :=
  ∀ pair ∈ pairs, ¬(pair.1.isFunction = true ∧ pair.2.isFunction = true)

/-- No two functions are compared in two lists exactly if none are in either. -/
theorem noFunctionPair_append {a b : List (Value × Value)} :
    NoFunctionPair (a ++ b) ↔ NoFunctionPair a ∧ NoFunctionPair b :=
  List.forall_mem_append

end Evaluator

open Evaluator (Env Outcome evalWith evalAtFuel comparedWith comparedAtFuel NoFunctionPair
  noFunctionPair_append)

/-! ## Values that match -/

section values

variable (K : Array Constant) (Q : String → Nat → Prop) (T : SlotTable)

/-- A value of the evaluator and one of the machine match, when the globals `T` are defined.
Functions match by their code; inside them, a global is read only if `Q` allows it. -/
def Agree : Evaluator.Value → Machine.Value → Prop
  | .integer a, .integer b => a = b
  | .boolean a, .boolean b => a = b
  | .nil, .nil => True
  | .closure _ param body env, .function _ code =>
    ∃ p c p', Emits K (T.Reads Q) (param :: env.map Prod.fst) body 0 p c p' ∧
      code = .ofInstrs (c ++ [.return_])
  | _, _ => False

variable {K Q T} {v w : Evaluator.Value} {v' w' : Machine.Value}

/-- Values that match are of the same form, and equal unless they are functions. -/
theorem Agree.cases (h : Agree K Q T v v') :
    (∃ a, v = .integer a ∧ v' = .integer a) ∨ (∃ b, v = .boolean b ∧ v' = .boolean b) ∨
      (v = .nil ∧ v' = .nil) ∨
      ∃ id param body env i code, v = .closure id param body env ∧ v' = .function i code := by
  cases v <;> cases v' <;> simp_all [Agree]

/-- Matching values count as true alike. -/
theorem Agree.isTruthy_eq (h : Agree K Q T v v') : v.isTruthy = v'.isTruthy := by
  obtain ⟨a, rfl, rfl⟩ | ⟨b, rfl, rfl⟩ | ⟨rfl, rfl⟩ | ⟨_, _, _, _, _, _, rfl, rfl⟩ := h.cases
  · rfl
  · cases b <;> rfl
  · rfl
  · rfl

/-- Matching values count as false alike. -/
theorem Agree.isFalse_eq (h : Agree K Q T v v') : v.isFalse = v'.isFalse := by
  obtain ⟨a, rfl, rfl⟩ | ⟨b, rfl, rfl⟩ | ⟨rfl, rfl⟩ | ⟨_, _, _, _, _, _, rfl, rfl⟩ := h.cases
  · rfl
  · cases b <;> rfl
  · rfl
  · rfl

/-- Values that are not both functions are equal in one engine if they are in the other. -/
theorem Agree.same_eq (hv : Agree K Q T v v') (hw : Agree K Q T w w')
    (hne : ¬(v.isFunction = true ∧ w.isFunction = true)) : v.same w = v'.same w' := by
  cases v <;> cases v' <;> cases w <;> cases w' <;>
    simp_all [Agree, Evaluator.Value.same, Machine.Value.same, Evaluator.Value.isFunction]

/-- Of two matching values both are the same integer or neither is. -/
theorem Agree.eq_integer_iff (h : Agree K Q T v v') {a : Int} :
    v' = .integer a ↔ v = .integer a := by
  obtain ⟨a, rfl, rfl⟩ | ⟨b, rfl, rfl⟩ | ⟨rfl, rfl⟩ | ⟨_, _, _, _, _, _, rfl, rfl⟩ := h.cases <;>
    simp

/-- The results of arithmetic match. -/
theorem agree_ofArith (r : ArithResult) : Agree K Q T (.ofArith r) (.ofArith r) := by
  cases r <;> rfl

end values

/-! ## Outcomes that match -/

namespace Machine

/-- The machine goes on at another offset with one more value on its stack. -/
def landed (m : Machine) (ip : Nat) (v : Value) : Machine :=
  (m.goto ip).push v

/-- The next step of a machine that has landed in front of an instruction. -/
theorem step_landed {m : Machine} {pre rest : List Instr} {i : Instr}
    (hcode : m.frame.code = .ofInstrs (pre ++ i :: rest)) (v : Value) :
    (m.landed (codeSize pre) v).step = ((m.landed (codeSize (pre ++ [i])) v).exec i).toStep :=
  step_at_boundary hcode rfl

/-- The machine takes some steps and then fails with an error of the given code. Nothing is shown
on the way. -/
def FailsWith (m : Machine) (code : String) : Prop :=
  ∃ k m₁ e m', Steps k m m₁ ∧ m₁.step = .failed e m' ∧ e.code = code ∧ m'.shown = m.shown

end Machine

open Machine (Steps)

/-- An error that is the fault of what a program computes, and not of a name in it. -/
def Evaluator.Error.IsFault (e : Evaluator.Error) : Prop :=
  e.code = "MAL-R002" ∨ e.code = "MAL-R003" ∨ e.code = "MAL-R004"

/-- The machine does what the evaluator did with fuel `n`. If that was a value, the machine gets
to `after v'`, where `v'` is the value that matches. -/
def Simulates (K : Array Constant) (Q : String → Nat → Prop) (T : SlotTable) (n : Nat)
    (m : Machine) (after : Machine.Value → Machine) : Outcome → Prop
  | .value v _ => ∃ k v', Agree K Q T v v' ∧ Steps k m (after v')
  | .error e => e.IsFault ∧ m.FailsWith e.code
  | .outOfFuel => ∃ k m', n ≤ k ∧ Steps k m m'

section outcomes

variable {K : Array Constant} {Q : String → Nat → Prop} {T : SlotTable} {n n' j : Nat}
  {m m₁ : Machine} {after after' : Machine.Value → Machine} {o : Outcome}

/-- One step to a matching value follows an evaluation to this value. -/
theorem simulates_value {v : Evaluator.Value} (v' : Machine.Value) {fresh : Nat}
    (hv : Agree K Q T v v') (hstep : m.step = .running (after v')) :
    Simulates K Q T n m after (.value v fresh) :=
  ⟨1, v', hv, .one hstep⟩

/-- One step to an error of the same code follows an evaluation to this error. -/
theorem simulates_error {e : Evaluator.Error} {e' : Machine.Error} {m' : Machine}
    (hfault : e.IsFault) (hstep : m.step = .failed e' m') (hcode : e'.code = e.code)
    (hshown : m'.shown = m.shown) : Simulates K Q T n m after (.error e) :=
  ⟨hfault, 0, m, e', m', .refl m, hstep, hcode, hshown⟩

/-- Steps taken before, which count towards those that a lack of fuel stands for. -/
theorem Simulates.prepend (h : Simulates K Q T n m₁ after o) (hsteps : Steps j m m₁)
    (hshown : m₁.shown = m.shown) (hn : n' ≤ j + n) : Simulates K Q T n' m after o := by
  cases o with
  | value v fresh =>
    obtain ⟨k, v', hv, hk⟩ := h
    exact ⟨j + k, v', hv, hsteps.trans hk⟩
  | error e =>
    obtain ⟨hfault, k, m₂, e', m', hk, hstep, hcode, hsh⟩ := h
    exact ⟨hfault, j + k, m₂, e', m', hsteps.trans hk, hstep, hcode, hsh.trans hshown⟩
  | outOfFuel =>
    obtain ⟨k, m', hk, hs⟩ := h
    exact ⟨j + k, m', by omega, hsteps.trans hs⟩

/-- One more step after a value. -/
theorem Simulates.append (h : Simulates K Q T n m after o)
    (hstep : ∀ v', (after v').step = .running (after' v')) : Simulates K Q T n m after' o := by
  cases o with
  | value v fresh =>
    obtain ⟨k, v', hv, hk⟩ := h
    exact ⟨k + 1, v', hv, hk.trans (.one (hstep v'))⟩
  | error e => exact h
  | outOfFuel => exact h

/-- An evaluation and what is done with its value. -/
theorem Simulates.andThen {next : Evaluator.Value → Nat → Outcome}
    (h : Simulates K Q T n m after o) (hshown : ∀ v', (after v').shown = m.shown)
    (hnext : ∀ v fresh v', o = .value v fresh → Agree K Q T v v' →
      Simulates K Q T n (after v') after' (next v fresh)) :
    Simulates K Q T n m after' (o.andThen next) := by
  cases o with
  | value v fresh =>
    obtain ⟨k, v', hv, hk⟩ := h
    exact (hnext v fresh v' rfl hv).prepend hk (hshown v') (Nat.le_add_left n k)
  | error e => exact h
  | outOfFuel => exact h

end outcomes

/-! ## Machines at the code of an expression -/

/-- The machine stands in front of the code `c`, between `pre` and `post`, with the globals and
the parameters `env` of the evaluator at hand. Only the innermost parameter is within reach. -/
structure Ready (K : Array Constant) (Q : String → Nat → Prop) (T : SlotTable) (globals env : Env)
    (pre c post : List Instr) (m : Machine) : Prop where
  pool_eq : m.pool = K
  globals : ∀ x i, T.slot? x = some i →
    ∃ v v', globals.lookup x = some v ∧ m.global? i = some v' ∧ Agree K Q T v v'
  argument : ∀ x v rest, env = (x, v) :: rest →
    ∃ v', m.stack[m.frame.base]? = some v' ∧ Agree K Q T v v'
  code_eq : m.frame.code = .ofInstrs (pre ++ (c ++ post))
  ip_eq : m.frame.ip = codeSize pre

namespace Ready

variable {K : Array Constant} {Q : String → Nat → Prop} {T : SlotTable} {globals env : Env}
  {pre c c₁ c₂ post : List Instr} {m : Machine} {i : Instr}

/-- In front of code in two parts the machine stands in front of the first. -/
theorem first (h : Ready K Q T globals env pre (c₁ ++ c₂) post m) :
    Ready K Q T globals env pre c₁ (c₂ ++ post) m :=
  { h with code_eq := by simpa using h.code_eq }

/-- The next step carries out the first instruction. -/
theorem step_eq (h : Ready K Q T globals env pre (i :: c) post m) :
    m.step = ((m.goto (codeSize (pre ++ [i]))).exec i).toStep :=
  Machine.step_at_boundary h.code_eq h.ip_eq

/-- The next step succeeds as its instruction does. -/
theorem step_of_exec (h : Ready K Q T globals env pre (i :: c) post m) {m' : Machine}
    (hexec : (m.goto (codeSize (pre ++ [i]))).exec i = Machine.ok m') : m.step = .running m' :=
  h.step_eq.trans (congrArg Machine.Result.toStep hexec)

/-- The next step loads the constant. -/
theorem step_constant {k : UInt8} (h : Ready K Q T globals env pre (.constant k :: c) post m)
    {v : Constant} (hk : K[k.toNat]? = some v) :
    m.step = .running (m.landed (codeSize (pre ++ [.constant k])) (.ofConstant k.toNat v)) := by
  rw [← h.pool_eq] at hk
  exact h.step_of_exec (Machine.exec_constant (m := m.goto _) hk)

/-- The machine may go on at another place of the same block. -/
theorem goto (h : Ready K Q T globals env pre c post m) {pre' c' post' : List Instr}
    (hcode : pre ++ (c ++ post) = pre' ++ (c' ++ post')) :
    Ready K Q T globals env pre' c' post' (m.goto (codeSize pre')) :=
  { h with
    code_eq := h.code_eq.trans (congrArg Code.ofInstrs hcode)
    ip_eq := rfl }

/-- A value on the stack does not change what is at hand. -/
theorem push (h : Ready K Q T globals env pre c post m) (v : Machine.Value) :
    Ready K Q T globals env pre c post (m.push v) where
  pool_eq := h.pool_eq
  globals := h.globals
  argument x w rest henv := by
    obtain ⟨v', hv', hagree⟩ := h.argument x w rest henv
    obtain ⟨hlt, -⟩ := Array.getElem?_eq_some_iff.mp hv'
    refine ⟨v', ?_, hagree⟩
    exact (Array.getElem?_push_lt hlt).trans ((Array.getElem?_eq_getElem hlt).symm.trans hv')
  code_eq := h.code_eq
  ip_eq := h.ip_eq

/-- Behind the first part of its code, with the value of that part on the stack. -/
theorem second (h : Ready K Q T globals env pre (c₁ ++ c₂) post m) (v : Machine.Value) :
    Ready K Q T globals env (pre ++ c₁) c₂ post (m.landed (codeSize (pre ++ c₁)) v) :=
  (h.goto (by simp)).push v

end Ready

/-! ## Instructions that match operators -/

section operators

variable {K : Array Constant} {Q : String → Nat → Prop} {T : SlotTable} {globals env : Env}
  {pre post : List Instr} {m : Machine} {n ip : Nat} {v w : Evaluator.Value}
  {v' w' : Machine.Value}

/-- The instruction of a unary operator follows the evaluator. -/
theorem simulates_unary {op : UnaryOp} (span : Span) (fresh : Nat)
    (h : Ready K Q T globals env pre [op.instr] post (m.landed ip v')) (hv : Agree K Q T v v') :
    Simulates K Q T n (m.landed ip v') (m.landed (codeSize (pre ++ [op.instr])))
      (Evaluator.applyUnary op span v fresh) := by
  have hstep := h.step_eq
  cases op with
  | not =>
    rw [UnaryOp.instr, Machine.exec_not (s := m.stack) rfl] at hstep
    exact simulates_value (.boolean v'.isFalse) hv.isFalse_eq hstep
  | negate =>
    rw [UnaryOp.instr] at hstep
    have hmismatch (hne : ∀ a, v' ≠ .integer a) :=
      Machine.exec_negate_of_mismatch (m := (m.landed ip v').goto (codeSize (pre ++ [.negate])))
        (s := m.stack) rfl hne
    obtain ⟨a, rfl, rfl⟩ | ⟨b, rfl, rfl⟩ | ⟨rfl, rfl⟩ | ⟨_, _, _, _, _, _, rfl, rfl⟩ := hv.cases
    · rw [Machine.exec_negate_integer (s := m.stack) rfl] at hstep
      exact simulates_value (.integer (-a)) rfl hstep
    all_goals
      obtain ⟨found, herr⟩ := hmismatch nofun
      rw [herr] at hstep
      exact simulates_error (.inl rfl) hstep rfl rfl

/-- An operator on anything but two integers blames one of the two. -/
theorem applyArith_of_mismatch (op : ArithOp) (span : Span) (fresh : Nat)
    (hne : ∀ a b, ¬(v = .integer a ∧ w = .integer b)) :
    ∃ found, Evaluator.applyArith op span v w fresh
      = .error ⟨.typeMismatch (BinaryOp.arith op).symbol found, span⟩ := by
  cases v with
  | integer a =>
    cases w with
    | integer b => exact absurd ⟨rfl, rfl⟩ (hne a b)
    | _ => exact ⟨_, rfl⟩
  | _ => exact ⟨_, rfl⟩

/-- An instruction of arithmetic follows the evaluator. -/
theorem simulates_arith {ip' : Nat} (op : ArithOp) (span : Span) (fresh : Nat)
    (h : Ready K Q T globals env pre [.arith op] post ((m.landed ip v').landed ip' w'))
    (hv : Agree K Q T v v') (hw : Agree K Q T w w') :
    Simulates K Q T n ((m.landed ip v').landed ip' w') (m.landed (codeSize (pre ++ [.arith op])))
      (Evaluator.applyArith op span v w fresh) := by
  have hstep := h.step_eq
  by_cases hint : ∃ a b, v = .integer a ∧ w = .integer b
  · obtain ⟨a, b, rfl, rfl⟩ := hint
    obtain rfl : v' = .integer a := hv.eq_integer_iff.mpr rfl
    obtain rfl : w' = .integer b := hw.eq_integer_iff.mpr rfl
    cases hres : op.result? a b with
    | some r =>
      have hvalue : Evaluator.applyArith op span (.integer a) (.integer b) fresh
          = .value (.ofArith r) fresh := by
        simp [Evaluator.applyArith, hres]
      rw [Machine.exec_arith_of_result (s := m.stack) rfl hres] at hstep
      rw [hvalue]
      exact simulates_value _ (agree_ofArith r) hstep
    | none =>
      have herror : Evaluator.applyArith op span (.integer a) (.integer b) fresh
          = .error ⟨.divisionByZero, span⟩ := by
        simp [Evaluator.applyArith, hres, Outcome.fail]
      rw [Machine.exec_arith_of_none (s := m.stack) rfl hres] at hstep
      rw [herror]
      exact simulates_error (.inr (.inl rfl)) hstep rfl rfl
  · have hother (a b : Int) : ¬(v = .integer a ∧ w = .integer b) := fun hab => hint ⟨a, b, hab⟩
    obtain ⟨found, herror⟩ := applyArith_of_mismatch op span fresh hother
    simp only [← hv.eq_integer_iff, ← hw.eq_integer_iff] at hother
    obtain ⟨found', hfail⟩ := Machine.exec_arith_of_mismatch
      (m := ((m.landed ip v').landed ip' w').goto (codeSize (pre ++ [.arith op]))) (s := m.stack) op
      rfl hother
    rw [hfail] at hstep
    rw [herror]
    exact simulates_error (.inl rfl) hstep rfl rfl

/-- What a binary operator makes of the values of both its operands. -/
def applyBinary (op : BinaryOp) (span : Span) (left right : Evaluator.Value) (fresh : Nat) :
    Outcome :=
  match op with
  | .arith op => Evaluator.applyArith op span left right fresh
  | .equals => .value (.boolean (left.same right)) fresh
  | .notEquals => .value (.boolean (!left.same right)) fresh
  | .and | .or => .value (.boolean right.isTruthy) fresh

/-- An operator that has an instruction evaluates both its operands. -/
theorem evalWith_binary {op : BinaryOp} {i : Instr} (hop : op.instr? = some i)
    (body : Expr → Env → Nat → Outcome) (span : Span) (l r : Expr) (fresh : Nat) :
    evalWith body globals (.binary span op l r) env fresh
      = (evalWith body globals l env fresh).andThen fun left fresh =>
          (evalWith body globals r env fresh).andThen (applyBinary op span left) := by
  cases op with
  | and | or => simp [BinaryOp.instr?] at hop
  | arith op | equals | notEquals => rfl

/-- What an operator that has an instruction compares: what its operands compare, and then
perhaps their values. -/
theorem noFunctionPair_binary {op : BinaryOp} {i : Instr} (hop : op.instr? = some i)
    {body : Expr → Env → Nat → Outcome} {compared : Expr → Env → Nat → List _} {span : Span}
    {l r : Expr} {fresh : Nat}
    (h : NoFunctionPair (comparedWith body compared globals (.binary span op l r) env fresh)) :
    NoFunctionPair (comparedWith body compared globals l env fresh) ∧
      ∀ left fresh₁, evalWith body globals l env fresh = .value left fresh₁ →
        NoFunctionPair (comparedWith body compared globals r env fresh₁) ∧
        ∀ right fresh₂, evalWith body globals r env fresh₁ = .value right fresh₂ →
          op = .equals ∨ op = .notEquals →
          ¬(left.isFunction = true ∧ right.isFunction = true) := by
  obtain ⟨hl, hrest⟩ := noFunctionPair_append.mp h
  refine ⟨hl, fun left fresh₁ hleft => ?_⟩
  have hstrict : ¬((op = .and ∧ left.isTruthy = false) ∨ (op = .or ∧ left.isTruthy = true)) := by
    cases op <;> simp_all [BinaryOp.instr?]
  simp only [hleft, if_neg hstrict] at hrest
  obtain ⟨hr, hpair⟩ := noFunctionPair_append.mp hrest
  refine ⟨hr, fun right fresh₂ hright hop => ?_⟩
  simp only [hright, if_pos hop] at hpair
  exact hpair (left, right) (List.mem_singleton.mpr rfl)

/-- A binary operator that has an instruction, on the values of its operands. -/
theorem simulates_binary {op : BinaryOp} {i : Instr} (hop : op.instr? = some i) {ip' : Nat}
    (span : Span) (fresh : Nat)
    (h : Ready K Q T globals env pre [i] post ((m.landed ip v').landed ip' w'))
    (hv : Agree K Q T v v') (hw : Agree K Q T w w')
    (hne : op = .equals ∨ op = .notEquals → ¬(v.isFunction = true ∧ w.isFunction = true)) :
    Simulates K Q T n ((m.landed ip v').landed ip' w') (m.landed (codeSize (pre ++ [i])))
      (applyBinary op span v w fresh) := by
  have hstep := h.step_eq
  cases op with
  | and | or => simp [BinaryOp.instr?] at hop
  | arith op =>
    obtain rfl : Instr.arith op = i := Option.some.inj hop
    exact simulates_arith op span fresh h hv hw
  | equals =>
    obtain rfl : Instr.equal = i := Option.some.inj hop
    rw [Machine.exec_equal (s := m.stack) rfl] at hstep
    exact simulates_value (.boolean _) (hv.same_eq hw (hne (.inl rfl))) hstep
  | notEquals =>
    obtain rfl : Instr.notEqual = i := Option.some.inj hop
    rw [Machine.exec_notEqual (s := m.stack) rfl] at hstep
    exact simulates_value (.boolean _)
      (congrArg Bool.not (hv.same_eq hw (hne (.inr rfl)))) hstep

/-- The two arms of a conditional, behind the value of its condition. -/
theorem simulates_branches {c₀ c₁ c₂ : List Instr} {start stop : Nat} {o₁ o₂ : Outcome}
    (hr : Ready K Q T globals env pre
      (c₀ ++ .jumpIfNotTrue start.toUInt16 :: (c₁ ++ .jump stop.toUInt16 :: c₂)) post m)
    (hstart : start = codeSize pre + codeSize c₀ + 3 + codeSize c₁ + 3)
    (hstop : stop = start + codeSize c₂) (hmax : stop ≤ maxTarget) (hv : Agree K Q T v v')
    (hthen : v.isTruthy = true → ∀ pre₁ post₁ m₁, Ready K Q T globals env pre₁ c₁ post₁ m₁ →
      codeSize pre₁ = codeSize pre + codeSize c₀ + 3 →
      Simulates K Q T n m₁ (m₁.landed (codeSize (pre₁ ++ c₁))) o₁)
    (helse : v.isTruthy = false → ∀ pre₁ post₁ m₁, Ready K Q T globals env pre₁ c₂ post₁ m₁ →
      codeSize pre₁ = start → Simulates K Q T n m₁ (m₁.landed (codeSize (pre₁ ++ c₂))) o₂) :
    Simulates K Q T n (m.landed (codeSize (pre ++ c₀)) v')
      (m.landed (codeSize (pre ++
        (c₀ ++ .jumpIfNotTrue start.toUInt16 :: (c₁ ++ .jump stop.toUInt16 :: c₂)))))
      (if v.isTruthy then o₁ else o₂) := by
  have hstart' : start.toUInt16.toNat = start := toNat_toUInt16 (by omega)
  have hstop' : stop.toUInt16.toNat = stop := toNat_toUInt16 hmax
  generalize start.toUInt16 = t at *
  generalize stop.toUInt16 = u at *
  -- the code in front of each arm, and the end of both
  let before₁ := pre ++ c₀ ++ [.jumpIfNotTrue t]
  let before₂ := before₁ ++ c₁ ++ [.jump u]
  have hsize₁ : codeSize before₁ = codeSize pre + codeSize c₀ + 3 := by
    simp [before₁, Instr.size, Nat.add_assoc]
  have hsize₂ : codeSize before₂ = start := by
    simp [before₂, hsize₁, hstart, Instr.size, Nat.add_assoc]
  have hend : codeSize (pre ++ (c₀ ++ .jumpIfNotTrue t :: (c₁ ++ .jump u :: c₂))) = stop := by
    simp only [codeSize_append, codeSize_cons, Instr.size]
    omega
  have hcode : m.frame.code = .ofInstrs (before₁ ++ c₁ ++ .jump u :: (c₂ ++ post)) :=
    hr.code_eq.trans (by simp [before₁])
  have hle : stop ≤ m.frame.code.size := by
    rw [hr.code_eq, Code.size_ofInstrs, ← hend, ← List.append_assoc pre _ post,
      codeSize_append _ post]
    exact Nat.le_add_right _ _
  have hjump := Machine.exec_jumpIfNotTrue (m := m.landed (codeSize before₁) v')
    (s := m.stack) rfl (show t.toNat ≤ m.frame.code.size by omega)
  have hstep := (hr.second v').step_eq.trans (congrArg Machine.Result.toStep hjump)
  rw [hstart', ← hv.isTruthy_eq] at hstep
  rw [hend]
  cases hb : v.isTruthy with
  | true =>
    rw [hb] at hstep
    have hready : Ready K Q T globals env before₁ c₁ (.jump u :: c₂ ++ post)
      (m.goto (codeSize before₁)) := hr.goto (by simp [before₁])
    have harm := hthen hb before₁ _ _ hready hsize₁
    refine Simulates.prepend (harm.append fun w => ?_) (.one hstep) rfl (Nat.le_add_left n 1)
    have hu : u.toNat ≤ (m.landed (codeSize before₂) w).frame.code.size := hstop' ▸ hle
    have hback := Machine.step_landed hcode w
    rw [Machine.exec_jump hu, hstop'] at hback
    exact hback
  | false =>
    rw [hb] at hstep
    have hready : Ready K Q T globals env before₂ c₂ post (m.goto (codeSize before₂)) :=
      hr.goto (by simp [before₁, before₂])
    have harm := helse hb before₂ _ _ hready hsize₂
    have hend₂ : codeSize (before₂ ++ c₂) = stop := by
      rw [codeSize_append _ c₂, hsize₂, hstop]
    rw [hsize₂, hend₂] at harm
    exact harm.prepend (.one hstep) rfl (Nat.le_add_left n 1)

/-- What a call makes of the values of its function and its argument. -/
def applyFunction (body : Expr → Env → Nat → Outcome) (span : Span)
    (function argument : Evaluator.Value) (fresh : Nat) : Outcome :=
  match function with
  | .closure _ param e outer => body e ((param, argument) :: outer) fresh
  | other => .fail (.notCallable other.typeName) span

/-- An application evaluates its argument first, then its function, and then calls it. -/
theorem evalWith_apply (body : Expr → Env → Nat → Outcome) (span : Span) (f a : Expr)
    (fresh : Nat) :
    evalWith body globals (.apply span f a) env fresh
      = (evalWith body globals a env fresh).andThen fun argument fresh =>
          (evalWith body globals f env fresh).andThen fun function fresh =>
            applyFunction body f.span function argument fresh :=
  rfl

/-- A call, behind the values of the argument and of the function. -/
theorem simulates_call {ip' : Nat} (span : Span) (fresh : Nat)
    (h : Ready K Q T globals env pre [.call] post ((m.landed ip w').landed ip' v'))
    (hv : Agree K Q T v v') (hw : Agree K Q T w w')
    (hbody : ∀ id param e outer p c p' (m' : Machine),
      v = .closure id param e outer →
      Emits K (T.Reads Q) (((param, w) :: outer).map Prod.fst) e 0 p c p' →
      Ready K Q T globals ((param, w) :: outer) [] c [.return_] m' →
      Simulates K Q T n m' (m'.landed (codeSize c))
        (evalAtFuel globals n e ((param, w) :: outer) fresh)) :
    Simulates K Q T (n + 1) ((m.landed ip w').landed ip' v') (m.landed (codeSize (pre ++ [.call])))
      (applyFunction (evalAtFuel globals n) span v w fresh) := by
  have hstep := h.step_eq
  have hmismatch (hne : ∀ i code, v' ≠ .function i code) :=
    Machine.exec_call_of_mismatch
      (m := ((m.landed ip w').landed ip' v').goto (codeSize (pre ++ [.call])))
      (s := m.stack.push w') rfl hne
  obtain ⟨a, rfl, rfl⟩ | ⟨b, rfl, rfl⟩ | ⟨rfl, rfl⟩ | ⟨id, param, e, outer, i, code, rfl, rfl⟩ :=
    hv.cases
  case inr.inr.inr =>
    obtain ⟨p, c, p', he, rfl⟩ := hv
    rw [Machine.exec_call (s := m.stack) rfl] at hstep
    refine Simulates.prepend ?_ (.one hstep) rfl (Nat.le_of_eq (Nat.add_comm n 1))
    refine (hbody id param e outer p c p' _ rfl he ?_).append fun r => ?_
    · -- the argument is the lowest value of the new frame
      refine ⟨h.pool_eq, h.globals, ?_, by simp, rfl⟩
      rintro x u rest ⟨⟩
      exact ⟨w', Array.getElem?_push_size, hw⟩
    · have hpopped : (m.stack.push w').shrink m.stack.size = m.stack := by simp
      rw [Machine.step_landed rfl, Machine.exec_return (s := m.stack.push w') rfl rfl]
      simp only [Machine.landed, Machine.goto, Machine.push, hpopped]
      rfl
  all_goals
    obtain ⟨found, herr⟩ := hmismatch nofun
    rw [herr] at hstep
    exact simulates_error (.inr (.inr rfl)) hstep rfl rfl

end operators

/-! ## Expressions -/

section expressions

variable {K : Array Constant} {Q : String → Nat → Prop} {T : SlotTable} {globals : Env} {n : Nat}

/-- With fuel `n` the machine follows the evaluator on every expression. -/
def FollowsAtFuel (K : Array Constant) (Q : String → Nat → Prop) (T : SlotTable) (globals : Env)
    (n : Nat) : Prop :=
  ∀ {env : Env} {e : Expr} {o p p' fresh : Nat} {pre c post : List Instr} {m : Machine},
    Emits K (T.Reads Q) (env.map Prod.fst) e o p c p' →
    Ready K Q T globals env pre c post m → codeSize pre = o →
    NoFunctionPair (comparedAtFuel globals n e env fresh) →
    Simulates K Q T n m (m.landed (codeSize (pre ++ c))) (evalAtFuel globals n e env fresh)

/-- A name that is not in the environment has no value. -/
theorem lookup_eq_none {env : Env} {x : String} (h : x ∉ env.map Prod.fst) :
    env.lookup x = none := by
  rw [List.lookup_eq_none_iff]
  intro q hq
  simp only [bne_iff_ne]
  rintro rfl
  exact h (List.mem_map_of_mem hq)

/-- Reading the innermost parameter. -/
theorem simulates_local (body : Expr → Env → Nat → Outcome) {env : Env} {s : Span} {x : String}
    {ps : List String} (fresh : Nat) {pre post : List Instr} {m : Machine}
    (hr : Ready K Q T globals env pre [.getLocal 0] post m) (hps : env.map Prod.fst = x :: ps) :
    Simulates K Q T n m (m.landed (codeSize (pre ++ [.getLocal 0])))
      (evalWith body globals (.name s x) env fresh) := by
  cases env with
  | nil => simp at hps
  | cons q rest =>
    obtain ⟨y, v⟩ := q
    obtain ⟨rfl, -⟩ := List.cons.inj hps
    obtain ⟨v', hv', hagree⟩ := hr.argument y v rest rfl
    rw [evalWith, List.lookup_cons_self]
    exact simulates_value _ hagree (hr.step_of_exec (Machine.exec_getLocal hv'))

/-- Reading a global, which no parameter hides. -/
theorem simulates_global (hslots : ∀ x i, T.slot? x = some i → i < maxSlots)
    (body : Expr → Env → Nat → Outcome) {env : Env} {s : Span} {x : String} {i : Nat}
    (fresh : Nat) {pre post : List Instr} {m : Machine}
    (hr : Ready K Q T globals env pre [.getGlobal i.toUInt8] post m)
    (hx : x ∉ env.map Prod.fst) (hslot : T.slot? x = some i) :
    Simulates K Q T n m (m.landed (codeSize (pre ++ [.getGlobal i.toUInt8])))
      (evalWith body globals (.name s x) env fresh) := by
  obtain ⟨v, v', hv, hv', hagree⟩ := hr.globals x i hslot
  rw [← toNat_toUInt8 (hslots x i hslot)] at hv'
  rw [evalWith, lookup_eq_none hx, hv]
  exact simulates_value _ hagree (hr.step_of_exec (Machine.exec_getGlobal hv'))

/-- One more level of calls: the induction is on the code of the expression, and a call goes to the
level below. -/
theorem FollowsAtFuel.succ (hslots : ∀ x i, T.slot? x = some i → i < maxSlots)
    (hbody : FollowsAtFuel K Q T globals n) : FollowsAtFuel K Q T globals (n + 1) := by
  intro env e o p p' fresh pre c post m he hr ho hcmp
  rw [evalAtFuel]
  rw [comparedAtFuel] at hcmp
  -- induction on the code; only a call needs `hbody`, since a body has its code in the pool
  generalize hps : env.map Prod.fst = ps at he
  induction he generalizing fresh pre post m with
  | @integer _ _ k _ p hp hk =>
    rw [← toNat_toUInt8 hp] at hk
    exact simulates_value (.integer k) rfl (hr.step_constant hk)
  | boolean => exact simulates_value (.boolean _) rfl hr.step_eq
  | nil => exact simulates_value .nil trivial hr.step_eq
  | local_ => exact simulates_local _ fresh hr hps
  | global hx hread => exact simulates_global hslots _ fresh hr (hps ▸ hx) hread.1
  | @unary _ s op _ _ _ c _ _ ih =>
    rw [evalWith]
    refine (ih hr.first ho hcmp hps).andThen (fun _ => rfl) fun v fresh₁ v' _ hv => ?_
    have := simulates_unary (n := n + 1) s fresh₁ (hr.second v') hv
    rwa [List.append_assoc] at this
  | @binary _ s op i _ _ _ _ c₁ _ c₂ _ hop _ _ ihl ihr =>
    obtain ⟨hl, hrest⟩ := noFunctionPair_binary hop hcmp
    rw [evalWith_binary hop]
    refine (ihl hr.first ho hl hps).andThen (fun _ => rfl) fun v fresh₁ v' hleft hv => ?_
    obtain ⟨hr', hpair⟩ := hrest v fresh₁ hleft
    have hsecond := hr.second v'
    refine (ihr hsecond.first (by rw [codeSize_append, ho]) hr' hps).andThen (fun _ => rfl)
      fun w fresh₂ w' hright hw => ?_
    have := simulates_binary (n := n + 1) hop s fresh₂ (hsecond.second w') hv hw
      (hpair w fresh₂ hright)
    simpa only [List.append_assoc] using this
  | @ifThen _ s _ _ _ _ c₀ _ c₁ _ start stop _ _ hstart hstop hmax ihc iht =>
    obtain ⟨hc, hrest⟩ := noFunctionPair_append.mp hcmp
    rw [evalWith]
    refine (ihc hr.first ho hc hps).andThen (fun _ => rfl) fun v fresh₁ v' hcond hv => ?_
    -- from here on only the arm that is taken counts
    simp only [hcond] at hrest
    refine simulates_branches hr (ho ▸ hstart) hstop hmax hv ?_ ?_
    · intro hb pre₁ post₁ m₁ hr₁ ho₁
      rw [hb] at hrest
      exact iht hr₁ (ho ▸ ho₁) hrest hps
    · intro _ pre₁ post₁ m₁ hr₁ _
      exact simulates_value .nil trivial hr₁.step_eq
  | @ifElse _ s _ _ _ _ _ c₀ _ c₁ _ c₂ _ start stop _ _ _ hstart hstop hmax ihc iht ihe =>
    obtain ⟨hc, hrest⟩ := noFunctionPair_append.mp hcmp
    rw [evalWith]
    refine (ihc hr.first ho hc hps).andThen (fun _ => rfl) fun v fresh₁ v' hcond hv => ?_
    simp only [hcond] at hrest
    refine simulates_branches hr (ho ▸ hstart) hstop hmax hv ?_ ?_
    · intro hb pre₁ post₁ m₁ hr₁ ho₁
      rw [hb] at hrest
      exact iht hr₁ (ho ▸ ho₁) hrest hps
    · intro hb pre₁ post₁ m₁ hr₁ ho₁
      rw [hb] at hrest
      exact ihe hr₁ ho₁ hrest hps
  | @lambda _ s param body _ _ cb p' hb hp hk ih =>
    rw [← toNat_toUInt8 hp] at hk
    exact simulates_value (.function _ _) ⟨_, cb, p', hps ▸ hb, rfl⟩ (hr.step_constant hk)
  | @apply _ s f _ _ _ c₁ _ c₂ _ _ _ iha ihf =>
    obtain ⟨ha, hrest⟩ := noFunctionPair_append.mp hcmp
    rw [evalWith_apply]
    refine (iha hr.first ho ha hps).andThen (fun _ => rfl) fun w fresh₁ w' harg hw => ?_
    simp only [harg] at hrest
    obtain ⟨hf, hcall⟩ := noFunctionPair_append.mp hrest
    have hsecond := hr.second w'
    refine (ihf hsecond.first (by rw [codeSize_append, ho]) hf hps).andThen (fun _ => rfl)
      fun v fresh₂ v' hfun hv => ?_
    simp only [hfun] at hcall
    have hready := hsecond.second v'
    have hlanded := simulates_call f.span fresh₂ hready hv hw
      fun id param e outer p c p' m' hclosure he hr' => by
        subst hclosure
        have := hbody he hr' rfl hcall
        rwa [List.nil_append] at this
    simpa only [List.append_assoc] using hlanded

/-- **The machine follows the evaluator** on every expression, whatever the fuel. -/
theorem followsAtFuel (hslots : ∀ x i, T.slot? x = some i → i < maxSlots) (n : Nat) :
    FollowsAtFuel K Q T globals n := by
  induction n with
  | zero =>
    intro env e o p p' fresh pre c post m _ _ _ _
    exact ⟨0, m, Nat.le_refl 0, .refl m⟩
  | succ n ih => exact ih.succ hslots

end expressions

end Duet
