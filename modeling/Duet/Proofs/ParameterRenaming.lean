import Duet.Proofs.AlikeTrees
import Duet.Proofs.EngineAgreement

/-!
# The names of parameters do not matter

Programs that differ in the names of parameters only are compiled to the same bytecode, or fail to
compile in the same way, and they are evaluated in the same way.

* `Expr.Alike.emit`: names with the same binding are resolved to the same place, so the same code is
  emitted up to the first error. An error may quote another name, but it is of the same kind and at
  the same place (`Fragment.Alike`).
* `Expr.Alike.evalAtFuel`: in the evaluator closures remember trees and environments, so values are
  compared by a relation as well. `Value.Alike` relates closures with the same identity whose bodies
  are alike inside their parameters and whose environments are alike entry by entry.
* `renamed_alike`: renaming the parameter of one function changes nothing.
-/

namespace Duet

/-! ## Compilation -/

/-- The same code and the same constants, and either no error or errors of the same kind at the same
place. -/
inductive Fragment.Alike : Fragment → Fragment → Prop
  | done (code : List Instr) (constants : List Constant) :
      Alike ⟨code, constants, none⟩ ⟨code, constants, none⟩
  | failed (code : List Instr) (constants : List Constant) {e e' : CompileError} :
      e'.code = e.code → e'.span = e.span →
      Alike ⟨code, constants, some e⟩ ⟨code, constants, some e'⟩

/-- A fragment is alike to itself. -/
theorem Fragment.Alike.refl (f : Fragment) : f.Alike f := by
  obtain ⟨code, constants, _ | e⟩ := f
  · exact .done code constants
  · exact .failed code constants rfl rfl

namespace Emission

/-- Emissions that give alike fragments wherever they stand. -/
def Alike (E E' : Emission) : Prop :=
  ∀ offset pool, (E offset pool).Alike (E' offset pool)

/-- An emission is alike to itself. -/
theorem Alike.refl (E : Emission) : E.Alike E :=
  fun offset pool => .refl (E offset pool)

/-- Failures of the same kind at the same place are alike. -/
theorem Alike.fail {e e' : CompileError} (hcode : e'.code = e.code) (hspan : e'.span = e.span) :
    (Emission.fail e).Alike (Emission.fail e') :=
  fun _ _ => .failed [] [] hcode hspan

/-- Alike emissions in a row are alike. -/
theorem Alike.andThen {E E' F F' : Emission} (hE : E.Alike E') (hF : F.Alike F') :
    (E.andThen F).Alike (E'.andThen F') := by
  intro o p
  have hf := hE o p
  unfold Emission.andThen
  generalize E o p = f at hf ⊢
  generalize E' o p = f' at hf ⊢
  rcases hf with ⟨c, k⟩ | ⟨c, k, hcode, hspan⟩
  · have hg := hF (o + codeSize c) (p + k.length)
    dsimp only
    generalize F (o + codeSize c) (p + k.length) = g at hg ⊢
    generalize F' (o + codeSize c) (p + k.length) = g' at hg ⊢
    rcases hg with ⟨c', k'⟩ | ⟨c', k', hcode, hspan⟩
    · exact .done _ _
    · exact .failed _ _ hcode hspan
  · exact .failed c k hcode hspan

/-- Conditionals with alike arms are alike. -/
theorem Alike.branches (s : Span) {A A' B B' : Emission} (hA : A.Alike A') (hB : B.Alike B') :
    (branches s A B).Alike (branches s A' B') := by
  intro o p
  have hf := hA (o + 3) p
  unfold Emission.branches
  generalize A (o + 3) p = f at hf ⊢
  generalize A' (o + 3) p = f' at hf ⊢
  rcases hf with ⟨c, k⟩ | ⟨c, k, hcode, hspan⟩
  · dsimp only
    by_cases hstart : maxTarget < o + 3 + codeSize c + 3
    · rw [if_pos hstart, if_pos hstart]
      exact .refl _
    · rw [if_neg hstart, if_neg hstart]
      have hg := hB (o + 3 + codeSize c + 3) (p + k.length)
      generalize B (o + 3 + codeSize c + 3) (p + k.length) = g at hg ⊢
      generalize B' (o + 3 + codeSize c + 3) (p + k.length) = g' at hg ⊢
      rcases hg with ⟨c', k'⟩ | ⟨c', k', hcode, hspan⟩
      · exact .refl _
      · exact .failed _ _ hcode hspan
  · exact .failed _ _ hcode hspan

/-- Functions with alike bodies are alike. -/
theorem Alike.function (s : Span) {B B' : Emission} (hB : B.Alike B') :
    (function s B).Alike (function s B') := by
  intro o p
  have hf := hB 0 p
  unfold Emission.function
  generalize B 0 p = f at hf ⊢
  generalize B' 0 p = f' at hf ⊢
  rcases hf with ⟨c, k⟩ | ⟨c, k, hcode, hspan⟩
  · exact .refl _
  · exact .failed _ _ hcode hspan

end Emission

/-- Names with the same binding are resolved to the same place. -/
theorem SameBinding.resolve?_eq {ps ps' : List String} {x x' : String} (h : SameBinding ps ps' x x')
    (T : SlotTable) : (Scope.within T ps').resolve? x' = (Scope.within T ps).resolve? x := by
  induction h with
  | innermost x x' ps ps' => rw [Scope.resolve?_within_self, Scope.resolve?_within_self]
  | outer hx hx' _ ih =>
    rw [Scope.resolve?_within_of_ne T _ hx, Scope.resolve?_within_of_ne T _ hx', ih]
  | global x => rfl

/-- Names that are bound by the same function, or by none, are read in the same way. -/
theorem SameBinding.emitName {ps ps' : List String} {x x' : String} (h : SameBinding ps ps' x x')
    (T : SlotTable) (s : Span) :
    Emission.Alike ((Scope.within T ps).emitName x s) ((Scope.within T ps').emitName x' s) := by
  unfold Scope.emitName
  rw [h.resolve?_eq T]
  rcases (Scope.within T ps).resolve? x with _ | ⟨_ | _ | _, i⟩
  · exact .fail rfl rfl
  · exact .refl _
  · exact .refl _
  · exact .fail rfl rfl

/-- Alike expressions are compiled alike. -/
theorem Expr.Alike.emit {ps ps' : List String} {e e' : Expr} (h : e.Alike ps ps' e')
    (T : SlotTable) :
    (e.emit (Scope.within T ps)).Alike (e'.emit (Scope.within T ps')) := by
  induction h with
  | integer s v => exact .refl _
  | text s v => exact .fail rfl rfl
  | boolean s v => exact .refl _
  | nil s => exact .refl _
  | name s hx => exact hx.emitName T s
  | unary s op _ ih => exact ih.andThen (.refl _)
  | binary s op _ _ ihl ihr =>
    rw [Expr.emit, Expr.emit]
    split
    · exact .fail rfl rfl
    · exact ihl.andThen (ihr.andThen (.refl _))
  | ifThen s _ _ ihc iht => exact ihc.andThen (.branches s iht (.refl _))
  | ifElse s _ _ _ ihc iht ihe => exact ihc.andThen (.branches s iht ihe)
  | lambda s _ ih => exact .function s ih
  | apply s _ _ ihf iha => exact iha.andThen (ihf.andThen (.refl _))

/-- An expression that is alike to a function is a function. -/
theorem Expr.Alike.isLambda_eq {ps ps' : List String} {e e' : Expr} (h : e.Alike ps ps' e') :
    e'.isLambda = e.isLambda := by
  cases h <;> rfl

/-- Alike definitions are compiled alike, and the name is defined by both or by neither. -/
theorem Expr.Alike.emitDefine {e e' : Expr} (h : e.Alike [] [] e') (s : Span) (x : String)
    (T : SlotTable) (o p : Nat) :
    ∃ T', (Duet.emitDefine s x e (.global T) o p).2 = .global T' ∧
      (Duet.emitDefine s x e' (.global T) o p).2 = .global T' ∧
      (Duet.emitDefine s x e (.global T) o p).1.Alike
        (Duet.emitDefine s x e' (.global T) o p).1 := by
  obtain ⟨V, hV⟩ : ∃ V : SlotTable,
      (if e.isLambda then (Scope.global T).define x else .global T) = .global V := by
    split
    · exact ⟨T.define x, rfl⟩
    · exact ⟨T, rfl⟩
  have hf := h.emit V o p
  unfold Duet.emitDefine
  simp only [h.isLambda_eq, hV]
  simp only [Scope.within] at hf
  generalize e.emit (.global V) o p = f at hf ⊢
  generalize e'.emit (.global V) o p = f' at hf ⊢
  rcases hf with ⟨c, k⟩ | ⟨c, k, hcode, hspan⟩
  · dsimp only
    split
    · exact ⟨T.define x, rfl, rfl, .done _ _⟩
    · exact ⟨T.define x, rfl, rfl, .refl _⟩
  · exact ⟨V, rfl, rfl, .failed c k hcode hspan⟩

/-- Alike statements are compiled to alike code, and leave the same globals. -/
theorem Stmt.Alike.emit {stmt stmt' : Stmt} (h : stmt.Alike stmt') (T : SlotTable) (o p : Nat) :
    ∃ T', (stmt.emit (.global T) o p).2 = .global T' ∧ (stmt'.emit (.global T) o p).2 = .global T' ∧
      (stmt.emit (.global T) o p).1.Alike (stmt'.emit (.global T) o p).1 := by
  rcases h with ⟨s, x, he⟩ | ⟨s, he⟩ | he
  · exact he.emitDefine s x T o p
  · exact ⟨T, rfl, rfl, (he.emit T).andThen (.refl _) o p⟩
  · exact ⟨T, rfl, rfl, (he.emit T).andThen (.refl _) o p⟩

/-- Alike programs are compiled alike. -/
theorem Program.Alike.emit {program program' : Program} (h : Program.Alike program program')
    (T : SlotTable) (o p : Nat) :
    (Program.emit program (.global T) o p).1.Alike (Program.emit program' (.global T) o p).1 := by
  induction h generalizing T o p with
  | nil => exact .done [] []
  | cons hstmt _ ih =>
    obtain ⟨T', hT, hT', hf⟩ := hstmt.emit T o p
    unfold Program.emit
    generalize Stmt.emit _ (.global T) o p = r at hT hf ⊢
    generalize Stmt.emit _ (.global T) o p = r' at hT' hf ⊢
    obtain ⟨f, scope⟩ := r
    obtain ⟨f', scope'⟩ := r'
    dsimp only at hT hT' hf ⊢
    subst hT hT'
    rcases hf with ⟨c, k⟩ | ⟨c, k, hcode, hspan⟩
    · have hg := ih T' (o + codeSize c) (p + k.length)
      dsimp only
      generalize (Program.emit _ (.global T') (o + codeSize c) (p + k.length)) = q at hg ⊢
      generalize (Program.emit _ (.global T') (o + codeSize c) (p + k.length)) = q' at hg ⊢
      obtain ⟨g, scope⟩ := q
      obtain ⟨g', scope'⟩ := q'
      dsimp only at hg ⊢
      rcases hg with ⟨c', k'⟩ | ⟨c', k', hcode, hspan⟩
      · exact .done _ _
      · exact .failed _ _ hcode hspan
    · exact .failed c k hcode hspan

/-- Alike programs are compiled to the same bytecode, or both are refused with errors of the same
kind at the same place. -/
theorem Program.Alike.compile {program program' : Program} (h : Program.Alike program program') :
    (∃ b, Duet.compile program = .ok b ∧ Duet.compile program' = .ok b) ∨
      ∃ e e', Duet.compile program = .error e ∧ Duet.compile program' = .error e' ∧
        e'.code = e.code ∧ e'.span = e.span := by
  have hf := h.emit .empty 0 0
  unfold Duet.compile Session.compile
  have hstart (program : Program) : Program.emit program Session.start.scope
      (codeSize Session.start.code) Session.start.constants.length
        = Program.emit program (.global .empty) 0 0 := rfl
  rw [hstart, hstart]
  generalize Program.emit program (.global .empty) 0 0 = r at hf ⊢
  generalize Program.emit program' (.global .empty) 0 0 = r' at hf ⊢
  obtain ⟨f, scope⟩ := r
  obtain ⟨f', scope'⟩ := r'
  rcases hf with ⟨c, k⟩ | ⟨c, k, hcode, hspan⟩
  · exact .inl ⟨_, rfl, rfl⟩
  · exact .inr ⟨_, _, rfl, rfl, hcode, hspan⟩

/-! ## Evaluation -/

namespace Evaluator

/-- Values that are equal up to the names of parameters. Closures have the same identity. -/
inductive Value.Alike : Value → Value → Prop
  | integer (n : Int) : Alike (.integer n) (.integer n)
  | boolean (b : Bool) : Alike (.boolean b) (.boolean b)
  | nil : Alike .nil .nil
  | text (s : String) : Alike (.text s) (.text s)
  | closure (id : Nat) {param param' : String} {body body' : Expr} {env env' : Env} :
      body.Alike (param :: env.map Prod.fst) (param' :: env'.map Prod.fst) body' →
      List.Forall₂ (fun q q' => Alike q.2 q'.2) env env' →
      Alike (.closure id param body env) (.closure id param' body' env')

/-- Environments whose values are alike, entry by entry. -/
abbrev Env.Alike (env env' : Env) : Prop :=
  List.Forall₂ (fun q q' => q.2.Alike q'.2) env env'

/-- Globals whose values are alike, name by name. -/
def Env.AlikeByName (globals globals' : Env) : Prop :=
  ∀ x, Option.Rel Value.Alike (globals.lookup x) (globals'.lookup x)

/-- Alike values at the same point of an evaluation, or the same failure. -/
inductive Outcome.Alike : Outcome → Outcome → Prop
  | value {v v' : Value} (fresh : Nat) : v.Alike v' → Alike (.value v fresh) (.value v' fresh)
  | error (e : Error) : Alike (.error e) (.error e)
  | outOfFuel : Alike .outOfFuel .outOfFuel

/-- Outcomes that go on alike from alike values are alike. -/
theorem Outcome.Alike.andThen {o o' : Outcome} {next next' : Value → Nat → Outcome}
    (h : o.Alike o')
    (hnext : ∀ v v' fresh, v.Alike v' → (next v fresh).Alike (next' v' fresh)) :
    (o.andThen next).Alike (o'.andThen next') := by
  rcases h with ⟨fresh, hv⟩ | e | _
  · exact hnext _ _ fresh hv
  · exact .error e
  · exact .outOfFuel

section values

variable {v v' w w' : Value}

/-- Alike values look alike. -/
theorem Value.Alike.outline_eq (h : v.Alike v') : v'.outline = v.outline := by
  cases h <;> rfl

/-- Alike values count as true alike. -/
theorem Value.Alike.isTruthy_eq (h : v.Alike v') : v'.isTruthy = v.isTruthy := by
  cases h <;> rfl

/-- Alike values count as false alike. -/
theorem Value.Alike.isFalse_eq (h : v.Alike v') : v'.isFalse = v.isFalse := by
  cases h <;> rfl

/-- Alike values are the same as alike values. -/
theorem Value.Alike.same_eq (hv : v.Alike v') (hw : w.Alike w') : v'.same w' = v.same w := by
  cases hv <;> cases hw <;> rfl

/-- Unary operators do the same to alike values. -/
theorem Value.Alike.applyUnary (h : v.Alike v') (op : UnaryOp) (s : Span) (fresh : Nat) :
    (applyUnary op s v fresh).Alike (applyUnary op s v' fresh) := by
  cases op with
  | not =>
    unfold Evaluator.applyUnary
    rw [h.isFalse_eq]
    exact .value fresh (.boolean _)
  | negate =>
    rcases h with n | b | _ | t | _
    · exact .value fresh (.integer (-n))
    all_goals exact .error _

/-- Operators on integers do the same to alike values. -/
theorem Value.Alike.onIntegers (hv : v.Alike v') (hw : w.Alike w') (op : BinaryOp) (s : Span)
    {next : Int → Int → Outcome} (hnext : ∀ l r, (next l r).Alike (next l r)) :
    (onIntegers op s v w next).Alike (onIntegers op s v' w' next) := by
  rcases hv with l | b | _ | t | _
  · rcases hw with r | b | _ | t | _
    · exact hnext l r
    all_goals exact .error _
  all_goals exact .error _

/-- Binary operators do the same to alike values. -/
theorem Value.Alike.applyStrict (hv : v.Alike v') (hw : w.Alike w') (op : BinaryOp) (s : Span)
    (fresh : Nat) : (applyStrict op s v w fresh).Alike (applyStrict op s v' w' fresh) := by
  cases op with
  | equals =>
    unfold Evaluator.applyStrict
    rw [hv.same_eq hw]
    exact .value fresh (.boolean _)
  | notEquals =>
    unfold Evaluator.applyStrict
    rw [hv.same_eq hw]
    exact .value fresh (.boolean _)
  | and => exact hv.onIntegers hw _ s fun _ _ => .error _
  | or => exact hv.onIntegers hw _ s fun _ _ => .error _
  | arith op =>
    refine hv.onIntegers hw _ s fun l r => ?_
    rcases op.result? l r with _ | n | b
    · exact .error _
    · exact .value fresh (.integer n)
    · exact .value fresh (.boolean b)

end values

/-- In alike environments, names with the same binding have alike values; or they are the same name
and no parameter. -/
theorem Env.Alike.lookup {env env' : Env} (henv : Env.Alike env env') {x x' : String}
    (hx : SameBinding (env.map Prod.fst) (env'.map Prod.fst) x x') :
    (∃ v v', env.lookup x = some v ∧ env'.lookup x' = some v' ∧ v.Alike v') ∨
      env.lookup x = none ∧ env'.lookup x' = none ∧ x' = x := by
  induction henv with
  | nil =>
    rcases hx with _ | _ | _
    exact .inr ⟨rfl, rfl, rfl⟩
  | @cons q q' env env' hq _ ih =>
    obtain ⟨p, v⟩ := q
    obtain ⟨p', v'⟩ := q'
    rcases hx with _ | ⟨hx, hx', hbinding⟩ | _
    · exact .inl ⟨v, v', List.lookup_cons_self, List.lookup_cons_self, hq⟩
    · rw [List.lookup_cons, List.lookup_cons, beq_false_of_ne hx, beq_false_of_ne hx']
      exact ih hbinding

/-- Alike expressions have the same span. -/
theorem Expr.Alike.span_eq {ps ps' : List String} {e e' : Expr} (h : e.Alike ps ps' e') :
    e'.span = e.span := by
  cases h <;> rfl

/-- Alike bodies are evaluated alike in alike environments. -/
def AlikeBodies (body body' : Expr → Env → Nat → Outcome) : Prop :=
  ∀ e e' env env' fresh, Env.Alike env env' →
    e.Alike (env.map Prod.fst) (env'.map Prod.fst) e' →
    (body e env fresh).Alike (body' e' env' fresh)

section evaluation

variable {globals globals' : Env}

/-- One level of calls. The induction is on the likeness of the trees; a call goes to the level
below, with alike arguments in front of alike environments. -/
theorem AlikeBodies.evalWith {body body' : Expr → Env → Nat → Outcome}
    (hbody : AlikeBodies body body') (hglobals : Env.AlikeByName globals globals') :
    AlikeBodies (evalWith body globals) (evalWith body' globals') := by
  intro e e' env env' fresh henv he
  generalize hps : env.map Prod.fst = ps at he
  generalize hps' : env'.map Prod.fst = ps' at he
  induction he generalizing fresh with
  | integer s n => exact .value fresh (.integer n)
  | text s t => exact .value fresh (.text t)
  | boolean s b => exact .value fresh (.boolean b)
  | nil s => exact .value fresh .nil
  | @name _ _ x x' s hx =>
    subst hps hps'
    rw [Evaluator.evalWith, Evaluator.evalWith]
    -- either a parameter, at the same place of both environments, or a global of the same name
    obtain ⟨v, v', hv, hv', halike⟩ | ⟨hnone, hnone', rfl⟩ := henv.lookup hx
    · rw [hv, hv']
      exact .value fresh halike
    · rw [hnone, hnone']
      have hglobal := hglobals x'
      generalize globals.lookup x' = r at hglobal ⊢
      generalize globals'.lookup x' = r' at hglobal ⊢
      rcases hglobal with halike | _
      · exact .value fresh halike
      · exact .error _
  | unary s op _ ih =>
    exact (ih fresh hps hps').andThen fun v v' fresh hv => hv.applyUnary op s fresh
  | binary s op _ _ ihl ihr =>
    refine (ihl fresh hps hps').andThen fun left left' fresh hleft => ?_
    have htruth {o o' : Outcome} (ho : o.Alike o') :
        (o.andThen fun right fresh => .value (.boolean right.isTruthy) fresh).Alike
          (o'.andThen fun right fresh => .value (.boolean right.isTruthy) fresh) := by
      refine ho.andThen fun right right' fresh hright => ?_
      rw [hright.isTruthy_eq]
      exact .value fresh (.boolean _)
    rw [hleft.isTruthy_eq]
    split
    · split
      · exact htruth (ihr fresh hps hps')
      · exact .value fresh (.boolean false)
    · split
      · exact .value fresh (.boolean true)
      · exact htruth (ihr fresh hps hps')
    · exact (ihr fresh hps hps').andThen fun right right' fresh hright =>
        hleft.applyStrict hright _ s fresh
  | ifThen s _ _ ihc iht =>
    refine (ihc fresh hps hps').andThen fun condition condition' fresh hcondition => ?_
    rw [hcondition.isTruthy_eq]
    split
    · exact iht fresh hps hps'
    · exact .value fresh .nil
  | ifElse s _ _ _ ihc iht ihe =>
    refine (ihc fresh hps hps').andThen fun condition condition' fresh hcondition => ?_
    rw [hcondition.isTruthy_eq]
    split
    · exact iht fresh hps hps'
    · exact ihe fresh hps hps'
  | lambda s hbody _ =>
    subst hps hps'
    exact .value (fresh + 1) (.closure fresh hbody henv)
  | apply s hf _ ihf iha =>
    refine (iha fresh hps hps').andThen fun argument argument' fresh hargument => ?_
    refine (ihf fresh hps hps').andThen fun function function' fresh hfunction => ?_
    rw [Expr.Alike.span_eq hf]
    rcases hfunction with n | b | _ | t | ⟨id, hinner, houter⟩
    case closure => exact hbody _ _ _ _ fresh (.cons hargument houter) hinner
    all_goals exact .error _

/-- Alike bodies are evaluated alike, however much fuel there is. -/
theorem alikeAtFuel (hglobals : Env.AlikeByName globals globals') (n : Nat) :
    AlikeBodies (evalAtFuel globals n) (evalAtFuel globals' n) := by
  induction n with
  | zero => exact fun _ _ _ _ _ _ _ => .outOfFuel
  | succ n ih => exact ih.evalWith hglobals

end evaluation

/-! ## Programs -/

/-- Setting a name to alike values keeps globals alike. -/
theorem Env.AlikeByName.setGlobal {s s' : Session} (h : Env.AlikeByName s.globals s'.globals)
    (x : String) {v v' : Value} (hv : v.Alike v') :
    Env.AlikeByName (s.setGlobal x v).globals (s'.setGlobal x v').globals := by
  intro y
  by_cases hy : y = x
  · subst hy
    rw [lookup_setGlobal_self, lookup_setGlobal_self]
    exact .some hv
  · rw [lookup_setGlobal_of_ne _ _ hy, lookup_setGlobal_of_ne _ _ hy]
    exact h y

/-- Alike programs, run on alike globals, show alike values and end in the same way. -/
theorem runAtFuel_alike {program program' : Program} (h : Program.Alike program program')
    {s s' : Session} (hfresh : s'.fresh = s.fresh)
    (hglobals : Env.AlikeByName s.globals s'.globals) (fuel : Nat) :
    (runAtFuel fuel program' s').ending = (runAtFuel fuel program s).ending ∧
      (runAtFuel fuel program' s').shown.map (·.outline)
        = (runAtFuel fuel program s).shown.map (·.outline) := by
  induction h generalizing s s' with
  | nil => exact ⟨rfl, rfl⟩
  | @cons stmt stmt' _ _ hstmt _ ih =>
    have hvalue : stmt.value.Alike [] [] stmt'.value := by
      rcases hstmt with ⟨_, _, he⟩ | ⟨_, he⟩ | he <;> exact he
    have hout := alikeAtFuel hglobals fuel _ _ [] [] s.fresh .nil hvalue
    unfold runAtFuel
    rw [hfresh]
    generalize evalAtFuel s.globals fuel stmt.value [] s.fresh = o at hout ⊢
    generalize evalAtFuel s'.globals fuel stmt'.value [] s.fresh = o' at hout ⊢
    rcases hout with ⟨fresh, hv⟩ | e | _
    · rcases hstmt with ⟨_, x, _⟩ | ⟨_, _⟩ | _
      · exact ih rfl (hglobals.setGlobal x hv)
      all_goals
        have hnext : Session.fresh ⟨s'.globals, fresh⟩ = Session.fresh ⟨s.globals, fresh⟩ := rfl
        obtain ⟨hending, hshown⟩ := ih hnext hglobals
        exact ⟨hending, by rw [List.map_cons, List.map_cons, hv.outline_eq, hshown]⟩
    · exact ⟨rfl, rfl⟩
    · exact ⟨rfl, rfl⟩

end Evaluator

/-- **Renaming a parameter changes nothing.** Let one function of a program be given another
parameter, together with the reads that belong to it, whose name occurs nowhere in the program.
Then both programs are compiled to the same bytecode, or both are refused with errors of the same
kind at the same place; and with every fuel both show the same values, apart from the text of
functions, and both end in the same way. In particular, if one of them never ends, the other one
does not either. -/
theorem renamed_alike {program program' : Program} {y : String}
    (hfresh : y ∉ Program.identifiers program)
    (hrenames : Program.RenamesParam y program program') :
    ((∃ b, compile program = .ok b ∧ compile program' = .ok b) ∨
      ∃ e e', compile program = .error e ∧ compile program' = .error e' ∧
        e'.code = e.code ∧ e'.span = e.span) ∧
    ∀ fuel,
      (Evaluator.runAtFuel fuel program' .start).ending
        = (Evaluator.runAtFuel fuel program .start).ending ∧
      (Evaluator.runAtFuel fuel program' .start).shown.map (·.outline)
        = (Evaluator.runAtFuel fuel program .start).shown.map (·.outline) := by
  have halike := hrenames.alike hfresh
  have hstart : Evaluator.Env.AlikeByName [] [] := fun _ => .none
  exact ⟨halike.compile, fun fuel => Evaluator.runAtFuel_alike halike rfl hstart fuel⟩

/-- A closure that outlives the call that made it. The name of its parameter, here `outer`, is also
that of a global and, if it is `x`, that of a parameter further in. -/
def curriedSum (outer : String) : Program :=
  [.define default "x" (.integer default 5),
    .define default "add" (.lambda default outer (.lambda default "z"
      (.binary default (.arith .add) (.name default outer)
        (.apply default
          (.lambda default "x"
            (.binary default (.arith .multiply) (.name default "x") (.name default "z")))
          (.name default outer))))),
    .puts default (.apply default (.apply default (.name default "add") (.name default "x"))
      (.integer default 2))]

/-- Renaming the parameter of `curriedSum` gives the same bytecode and shows the same value. -/
theorem renamed_alike_curriedSum :
    "y" ∉ Program.identifiers (curriedSum "x") ∧
    Program.RenamesParam "y" (curriedSum "x") (curriedSum "y") ∧
    ((∃ b, compile (curriedSum "x") = .ok b ∧ compile (curriedSum "y") = .ok b) ∨
      ∃ e e', compile (curriedSum "x") = .error e ∧ compile (curriedSum "y") = .error e' ∧
        e'.code = e.code ∧ e'.span = e.span) ∧
    (Evaluator.runAtFuel 4 (curriedSum "x") .start).shown.map (·.outline) = [.integer 15] ∧
    (Evaluator.runAtFuel 4 (curriedSum "y") .start).shown.map (·.outline) = [.integer 15] := by
  have hfresh : "y" ∉ Program.identifiers (curriedSum "x") := by decide
  have hrenames : Program.RenamesParam "y" (curriedSum "x") (curriedSum "y") :=
    .tail _ (.head _ (.define _ _ (.here _ _ _)))
  obtain ⟨hcompile, hrun⟩ := renamed_alike hfresh hrenames
  exact ⟨hfresh, hrenames, hcompile, rfl, (hrun 4).2⟩

end Duet
