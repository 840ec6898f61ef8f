import Duet.Evaluator.Value

/-!
# The evaluator: expressions and programs

Evaluating an expression recurses on the expression; only a call leaves it, for the body of the
closure that is called. `evalWith` is therefore defined by recursion on the expression, with the
evaluation of bodies as an argument, and `evalAtFuel` closes the knot, with a bound on how many
calls may be nested. Running out of that bound is an outcome of its own.

While an expression is evaluated the globals do not change. What does change is the number from
which the next closure takes its identity, so it is handed on from part to part.

A session keeps its globals from one program to the next. A closure sees the globals of the time
at which it is called.
-/

namespace Duet.Evaluator

/-- The outcome of evaluating an expression. -/
inductive Outcome where
  /-- A value, and the identity of the next closure. -/
  | value (v : Value) (fresh : Nat)
  | error (e : Error)
  /-- Too many calls were nested. -/
  | outOfFuel
deriving Repr

/-- Goes on with the value of a successful evaluation. -/
def Outcome.andThen (o : Outcome) (next : Value → Nat → Outcome) : Outcome :=
  match o with
  | .value v fresh => next v fresh
  | .error e => .error e
  | .outOfFuel => .outOfFuel

/-- A failure at an expression. -/
def Outcome.fail (cause : Cause) (span : Span) : Outcome :=
  .error ⟨cause, span⟩

/-- Goes on with the operands of an operator that wants two integers. If the left one is an integer
and the right one is not, the right one is at fault, else the left one. -/
def onIntegers (op : BinaryOp) (span : Span) (left right : Value) (next : Int → Int → Outcome) :
    Outcome :=
  let mismatch (v : Value) : Outcome := .fail (.typeMismatch op.symbol v.typeName) span
  match left, right with
  | .integer l, .integer r => next l r
  | .integer _, other => mismatch other
  | other, _ => mismatch other

@[simp] theorem onIntegers_integer (op : BinaryOp) (span : Span) (l r : Int)
    (next : Int → Int → Outcome) :
    onIntegers op span (.integer l) (.integer r) next = next l r :=
  rfl

/-- Applies an operator on integers. -/
def applyArith (op : ArithOp) (span : Span) (left right : Value) (fresh : Nat) : Outcome :=
  onIntegers (.arith op) span left right fun l r =>
    match op.result? l r with
    | some result => .value (.ofArith result) fresh
    | none => .fail .divisionByZero span

/-- Applies a binary operator to the values of both its operands. The operators `and` and `or`, which
may leave their right operand alone, have no result here, not even on two integers. -/
def applyStrict (op : BinaryOp) (span : Span) (left right : Value) (fresh : Nat) : Outcome :=
  match op with
  | .equals => .value (.boolean (left.same right)) fresh
  | .notEquals => .value (.boolean (!left.same right)) fresh
  | .arith op => applyArith op span left right fresh
  | .and | .or => onIntegers op span left right fun _ _ => .fail (.notArithmetic op.symbol) span

/-- Applies a unary operator. -/
def applyUnary (op : UnaryOp) (span : Span) (v : Value) (fresh : Nat) : Outcome :=
  match op with
  | .not => .value (.boolean v.isFalse) fresh
  | .negate =>
    match v with
    | .integer n => .value (.integer (-n)) fresh
    | other => .fail (.typeMismatch UnaryOp.negate.symbol other.typeName) span

/-- Evaluates an expression, given how the body of a called closure is evaluated. Parameters are
looked up before globals. The argument of an application is evaluated before its function. -/
def evalWith (body : Expr → Env → Nat → Outcome) (globals : Env) :
    Expr → Env → Nat → Outcome
  | .integer _ value, _, fresh => .value (.integer value) fresh
  | .text _ value, _, fresh => .value (.text value) fresh
  | .boolean _ value, _, fresh => .value (.boolean value) fresh
  | .nil _, _, fresh => .value .nil fresh
  | .name span x, env, fresh =>
    match env.lookup x with
    | some v => .value v fresh
    | none =>
      match globals.lookup x with
      | some v => .value v fresh
      | none => .fail (.unboundName x) span
  | .unary span op e, env, fresh =>
    (evalWith body globals e env fresh).andThen (applyUnary op span)
  | .binary span op l r, env, fresh =>
    (evalWith body globals l env fresh).andThen fun left fresh =>
      match op with
      | .and =>
        if left.isTruthy then
          (evalWith body globals r env fresh).andThen fun right fresh =>
            .value (.boolean right.isTruthy) fresh
        else .value (.boolean false) fresh
      | .or =>
        if left.isTruthy then .value (.boolean true) fresh
        else
          (evalWith body globals r env fresh).andThen fun right fresh =>
            .value (.boolean right.isTruthy) fresh
      | strict => (evalWith body globals r env fresh).andThen (applyStrict strict span left)
  | .ifThen _ c t, env, fresh =>
    (evalWith body globals c env fresh).andThen fun condition fresh =>
      if condition.isTruthy then evalWith body globals t env fresh else .value .nil fresh
  | .ifElse _ c t e, env, fresh =>
    (evalWith body globals c env fresh).andThen fun condition fresh =>
      if condition.isTruthy then evalWith body globals t env fresh
      else evalWith body globals e env fresh
  | .lambda _ param e, env, fresh => .value (.closure fresh param e env) (fresh + 1)
  | .apply _ f a, env, fresh =>
    (evalWith body globals a env fresh).andThen fun argument fresh =>
      (evalWith body globals f env fresh).andThen fun function fresh =>
        match function with
        | .closure _ param e outer => body e ((param, argument) :: outer) fresh
        | other => .fail (.notCallable other.typeName) f.span

/-- Evaluates an expression with at most as many nested calls as the fuel says. -/
def evalAtFuel (globals : Env) : Nat → Expr → Env → Nat → Outcome
  | 0, _, _, _ => .outOfFuel
  | n + 1, e, env, fresh => evalWith (evalAtFuel globals n) globals e env fresh

/-! ## Programs -/

/-- What an evaluation leaves behind. -/
structure Session where
  globals : Env
  /-- The identity of the next closure. -/
  fresh : Nat
deriving Repr

namespace Session

/-- The session at its start. -/
def start : Session := ⟨[], 0⟩

/-- The value of a global. -/
def global? (s : Session) (name : String) : Option Value :=
  s.globals.lookup name

/-- The session with a global set. -/
def setGlobal (s : Session) (name : String) (v : Value) : Session :=
  { s with globals := (name, v) :: s.globals.filter (·.1 ≠ name) }

end Session

/-- How the evaluation of a program ended. -/
inductive Ending where
  | finished
  | failed (e : Error)
  | outOfFuel
deriving DecidableEq, Repr

/-- An evaluation of a program: the session after it, the values shown in order, and how it
ended. -/
structure Run where
  session : Session
  shown : List Value
  ending : Ending
deriving Repr

/-- Evaluates the statements of a program in order, up to the first that fails. A definition
takes effect once its value is known; the other statements show theirs. -/
def runAtFuel (fuel : Nat) : Program → Session → Run
  | [], s => ⟨s, [], .finished⟩
  | stmt :: stmts, s =>
    match evalAtFuel s.globals fuel stmt.value [] s.fresh with
    | .error e => ⟨s, [], .failed e⟩
    | .outOfFuel => ⟨s, [], .outOfFuel⟩
    | .value v fresh =>
      let s := { s with fresh := fresh }
      match stmt with
      | .define _ x _ => runAtFuel fuel stmts (s.setGlobal x v)
      | .puts .. | .expression _ =>
        let run := runAtFuel fuel stmts s
        { run with shown := v :: run.shown }

end Duet.Evaluator
