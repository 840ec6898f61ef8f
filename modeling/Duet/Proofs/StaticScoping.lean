import Duet.Proofs.AcceptedPrograms
import Duet.Proofs.EngineAgreement

/-!
# Static scoping is sound for the evaluator

The compiler looks names up in tables that it builds along the program; the evaluator looks them
up in the environments of closures and among the globals, at the time of the call. A name that the
compiler accepts is nevertheless always found.

`Value.Scoped names` is what makes this work: in the body of a closure, every name is a parameter
around it or one of `names`, and the same holds of every closure in its environment. The globals
only grow, so a closure stays scoped wherever it is stored or passed (`Value.Scoped.mono`), and
calls keep the property (`soundAtFuel`). The one closure that is not scoped when it is made is
a function that calls itself: its own name is defined one step later, before it can be called.
-/

namespace Duet

/-! ## Names that are found -/

/-- The name that is read is a parameter around the place or one of the given globals. -/
def Occurrence.Found (names : List String) (occ : Occurrence) : Prop :=
  occ.name ∈ occ.params ∨ occ.name ∈ names

/-- A name that can be read is found. -/
theorem Occurrence.Resolves.found {names : List String} {occ : Occurrence}
    (h : occ.Resolves names) : occ.Found names := by
  rcases h with hparam | ⟨-, hname⟩
  · exact .inl (List.mem_of_mem_head? hparam)
  · exact .inr hname

/-- Every name that the expression reads is found, inside functions with the given parameters. -/
def Expr.Scoped (names params : List String) (e : Expr) : Prop :=
  ∀ occ ∈ e.occurrences params, occ.Found names

/-- Names that are found are found among more globals. -/
theorem Expr.Scoped.mono {names names' params : List String} {e : Expr}
    (h : e.Scoped names params) (hsub : names ⊆ names') : e.Scoped names' params := by
  intro occ hocc
  exact (h occ hocc).imp_right fun hname => hsub hname

namespace Evaluator

/-- In every closure that can be reached from the value, each name is a parameter around it or one
of the given globals. -/
inductive Value.Scoped (names : List String) : Value → Prop
  | integer (n : Int) : Scoped names (.integer n)
  | boolean (b : Bool) : Scoped names (.boolean b)
  | nil : Scoped names .nil
  | text (s : String) : Scoped names (.text s)
  | closure {id : Nat} {param : String} {body : Expr} {env : Env} :
      body.Scoped names (param :: env.map Prod.fst) → (∀ q ∈ env, Scoped names q.2) →
      Scoped names (.closure id param body env)

/-- A value that is scoped is scoped among more globals. -/
theorem Value.Scoped.mono {names names' : List String} {v : Value} (h : v.Scoped names)
    (hsub : names ⊆ names') : v.Scoped names' := by
  induction h with
  | integer n => exact .integer n
  | boolean b => exact .boolean b
  | nil => exact .nil
  | text s => exact .text s
  | closure hbody _ ih => exact .closure (hbody.mono hsub) ih

/-- Globals in which each of the given names has a value, and only scoped values. -/
structure Env.Provides (globals : Env) (names : List String) : Prop where
  defined : ∀ x ∈ names, ∃ v, globals.lookup x = some v
  values : ∀ q ∈ globals, q.2.Scoped names

/-- A value of the environment is scoped if all are. -/
theorem scoped_of_lookup {names : List String} {env : Env} {x : String} {v : Value}
    (henv : ∀ q ∈ env, q.2.Scoped names) (h : env.lookup x = some v) : v.Scoped names := by
  obtain ⟨before, after, hsplit, -⟩ := List.lookup_eq_some_iff.mp h
  exact henv (x, v) (by simp [hsplit])

/-! ## Evaluations -/

/-- A value is scoped, and an error is the fault of what was computed. -/
def Outcome.Sound (names : List String) : Outcome → Prop
  | .value v _ => v.Scoped names
  | .error e => e.IsFault
  | .outOfFuel => True

/-- An outcome that goes on soundly from scoped values is sound. -/
theorem Outcome.Sound.andThen {names : List String} {o : Outcome} {next : Value → Nat → Outcome}
    (h : o.Sound names)
    (hnext : ∀ v fresh, v.Scoped names → (next v fresh).Sound names) :
    (o.andThen next).Sound names := by
  cases o with
  | value v fresh => exact hnext v fresh h
  | error e => exact h
  | outOfFuel => trivial

section sound

variable {names : List String} {globals : Env}

/-- A name that is found has a scoped value. -/
theorem sound_name (body : Expr → Env → Nat → Outcome) (hglobals : globals.Provides names)
    {env : Env} (henv : ∀ q ∈ env, q.2.Scoped names) {s : Span} {x : String}
    (hx : x ∈ env.map Prod.fst ∨ x ∈ names) (fresh : Nat) :
    (evalWith body globals (.name s x) env fresh).Sound names := by
  rw [evalWith]
  split
  · next v hv => exact scoped_of_lookup henv hv
  · next hnone =>
    have hnames : x ∈ names := by
      refine hx.resolve_left fun hmem => ?_
      obtain ⟨q, hq, rfl⟩ := List.mem_map.mp hmem
      simpa using List.lookup_eq_none_iff.mp hnone q hq
    obtain ⟨v, hv⟩ := hglobals.defined x hnames
    rw [hv]
    exact scoped_of_lookup hglobals.values hv

/-- A unary operator fails only through its operand. -/
theorem sound_applyUnary (op : UnaryOp) (s : Span) (v : Value) (fresh : Nat) :
    (applyUnary op s v fresh).Sound names := by
  cases op with
  | not => exact .boolean _
  | negate =>
    cases v with
    | integer n => exact .integer _
    | _ => exact .inl rfl

/-- An operator on integers fails only through its operands, or as what follows does. -/
theorem sound_onIntegers (op : BinaryOp) (s : Span) (left right : Value)
    {next : Int → Int → Outcome} (hnext : ∀ l r, (next l r).Sound names) :
    (onIntegers op s left right next).Sound names := by
  unfold onIntegers
  split
  · exact hnext _ _
  · exact .inl rfl
  · exact .inl rfl

/-- An operator that evaluates both operands is one of those that have a result. -/
theorem sound_applyStrict {op : BinaryOp} (hand : op ≠ .and) (hor : op ≠ .or) (s : Span)
    (left right : Value) (fresh : Nat) : (applyStrict op s left right fresh).Sound names := by
  cases op with
  | and => exact absurd rfl hand
  | or => exact absurd rfl hor
  | equals => exact .boolean _
  | notEquals => exact .boolean _
  | arith op =>
    refine sound_onIntegers _ s left right fun l r => ?_
    split
    · next result _ =>
      cases result with
      | integer n => exact .integer n
      | boolean b => exact .boolean b
    · exact .inr (.inl rfl)

/-- The bodies of functions are evaluated soundly where their names are found. -/
def SoundBodies (names : List String) (body : Expr → Env → Nat → Outcome) : Prop :=
  ∀ e env fresh, e.Scoped names (env.map Prod.fst) → (∀ q ∈ env, q.2.Scoped names) →
    (body e env fresh).Sound names

/-- One level of calls: the induction is on the expression, and a call goes to the level below,
with the argument as one more parameter of the environment that the closure remembers. -/
theorem SoundBodies.evalWith {body : Expr → Env → Nat → Outcome} (hbody : SoundBodies names body)
    (hglobals : globals.Provides names) : SoundBodies names (evalWith body globals) := by
  intro e env fresh he henv
  induction e generalizing fresh with
  | integer s n => exact .integer _
  | text s v => exact .text v
  | boolean s b => exact .boolean b
  | nil s => exact .nil
  | name s x => exact sound_name body hglobals henv (he ⟨x, _⟩ (by simp)) fresh
  | unary s op e ih =>
    exact (ih fresh he).andThen fun v fresh _ => sound_applyUnary op s v fresh
  | binary s op l r ihl ihr =>
    obtain ⟨hl, hr⟩ := List.forall_mem_append.mp he
    refine (ihl fresh hl).andThen fun left fresh _ => ?_
    have htruth (o : Outcome) (ho : o.Sound names) :
        (o.andThen fun right fresh => .value (.boolean right.isTruthy) fresh).Sound names :=
      ho.andThen fun _ _ _ => .boolean _
    split
    · split
      · exact htruth _ (ihr fresh hr)
      · exact .boolean _
    · split
      · exact .boolean _
      · exact htruth _ (ihr fresh hr)
    · next hand hor =>
      exact (ihr fresh hr).andThen fun right fresh _ =>
        sound_applyStrict hand hor s left right fresh
  | ifThen s c t ihc iht =>
    obtain ⟨hc, ht⟩ := List.forall_mem_append.mp he
    refine (ihc fresh hc).andThen fun condition fresh _ => ?_
    split
    · exact iht fresh ht
    · exact .nil
  | ifElse s c t e ihc iht ihe =>
    obtain ⟨hct, he⟩ := List.forall_mem_append.mp he
    obtain ⟨hc, ht⟩ := List.forall_mem_append.mp hct
    refine (ihc fresh hc).andThen fun condition fresh _ => ?_
    split
    · exact iht fresh ht
    · exact ihe fresh he
  | lambda s param body _ => exact .closure he henv
  | apply s f a ihf iha =>
    obtain ⟨hf, ha⟩ := List.forall_mem_append.mp he
    refine (iha fresh ha).andThen fun argument fresh hargument => ?_
    refine (ihf fresh hf).andThen fun function fresh hfunction => ?_
    cases hfunction with
    | closure hscoped houter =>
      refine hbody _ _ fresh hscoped fun q hq => ?_
      rcases List.mem_cons.mp hq with rfl | hq
      · exact hargument
      · exact houter q hq
    | _ => exact .inr (.inr rfl)

/-- Evaluations are sound, whatever the fuel. -/
theorem soundAtFuel (hglobals : globals.Provides names) (n : Nat) :
    SoundBodies names (evalAtFuel globals n) := by
  induction n with
  | zero => exact fun _ _ _ _ _ => trivial
  | succ n ih => exact ih.evalWith hglobals

/-! ## Programs -/

/-- The value of a statement is scoped by the names that the statement sees. A function that is
being defined sees its own name, which the globals do not have yet; it is not called here. -/
theorem sound_stmt (hglobals : globals.Provides names) {stmt : Stmt}
    (h : stmt.value.Scoped (stmt.visibleNames names) []) (n fresh : Nat) :
    (evalAtFuel globals n stmt.value [] fresh).Sound (stmt.visibleNames names) := by
  have hplain (hvisible : stmt.visibleNames names = names) :
      (evalAtFuel globals n stmt.value [] fresh).Sound (stmt.visibleNames names) := by
    rw [hvisible] at h ⊢
    exact soundAtFuel hglobals n _ [] fresh h nofun
  cases stmt with
  | puts s value => exact hplain rfl
  | expression value => exact hplain rfl
  | define s x value =>
    cases value with
    | lambda s' param body =>
      cases n with
      | zero => trivial
      | succ n => exact .closure h nofun
    | _ => exact hplain rfl

/-- What is defined behind a statement is provided by the session after it. -/
theorem provides_after {s : Session} (hglobals : s.globals.Provides names) {stmt : Stmt} {v : Value}
    (hv : v.Scoped (stmt.visibleNames names)) (fresh : Nat) :
    (s.after stmt v fresh).globals.Provides (stmt.namesAfter names) := by
  have hvisible : stmt.visibleNames names ⊆ stmt.namesAfter names :=
    (stmt.visibleNames_prefix names).subset
  have hnames : names ⊆ stmt.namesAfter names := List.subset_append_left _ _
  have hold (q : String × Value) (hq : q ∈ s.globals) : q.2.Scoped (stmt.namesAfter names) :=
    (hglobals.values q hq).mono hnames
  cases stmt with
  | puts | expression =>
    refine ⟨fun x hx => hglobals.defined x ?_, hold⟩
    simpa [Stmt.namesAfter, Stmt.definedName?] using hx
  | define span y value =>
    refine ⟨fun x hx => ?_, fun q hq => ?_⟩
    · by_cases hxy : x = y
      · exact ⟨v, hxy ▸ lookup_setGlobal_self _ y v⟩
      · have hx : x ∈ names := by simpa [Stmt.namesAfter, Stmt.definedName?, hxy] using hx
        obtain ⟨w, hw⟩ := hglobals.defined x hx
        exact ⟨w, (lookup_setGlobal_of_ne _ v hxy).trans hw⟩
    · rcases List.mem_cons.mp hq with rfl | hq
      · exact hv.mono hvisible
      · exact hold q (List.mem_filter.mp hq).1

/-- A run of statements whose names are all found never fails for the lack of a name. -/
theorem isFault_of_runAtFuel {program : Program} {s : Session} {fuel : Nat} {e : Error}
    (hglobals : s.globals.Provides names)
    (hscoped : ∀ before stmt after, program = before ++ stmt :: after →
      stmt.value.Scoped (stmt.visibleNames (names ++ Program.definedNames before)) [])
    (h : (runAtFuel fuel program s).ending = .failed e) : e.IsFault := by
  induction program generalizing names s with
  | nil => cases h
  | cons stmt stmts ih =>
    obtain ⟨hfirst, hrest⟩ := Program.forall_split_cons_iff.mp hscoped
    have hsound : (evalAtFuel s.globals fuel stmt.value [] s.fresh).Sound
        (stmt.visibleNames names) :=
      sound_stmt hglobals (by simpa [Program.definedNames] using hfirst) fuel s.fresh
    cases hout : evalAtFuel s.globals fuel stmt.value [] s.fresh with
    | value v fresh =>
      rw [hout] at hsound
      rw [runAtFuel_cons_of_value hout] at h
      refine ih (provides_after hglobals hsound fresh) (fun before s' after hs => ?_) h
      rw [← Program.append_definedNames_cons]
      exact hrest before s' after hs
    | error e' =>
      rw [hout] at hsound
      rw [runAtFuel, hout] at h
      cases h
      exact hsound
    | outOfFuel =>
      rw [runAtFuel, hout] at h
      cases h

end sound

end Evaluator

/-- What is accepted by the compiler reads only names that are found. -/
theorem scoped_of_compile {program : Program} {b : Bytecode} (h : compile program = .ok b)
    (before : Program) (stmt : Stmt) (after : Program)
    (hsplit : program = before ++ stmt :: after) :
    stmt.value.Scoped (stmt.visibleNames (Program.definedNames before)) [] := by
  have hsucceeds := exists_compile_iff_succeeds.mp ⟨b, h⟩
  have hsupported : Program.SupportedAt [] 0 0 program :=
    (Program.succeeds_iff (Nat.zero_le _) (Nat.zero_le _)).mp hsucceeds
  intro occ hocc
  exact (hsupported.resolves before stmt after hsplit occ hocc).found

/-- **Static scoping is sound for the evaluator.** The evaluation of a program that the compiler
accepts never fails because a name is not found, nor because an operator that is not one on integers
has been given two integers. -/
theorem evaluation_error_of_compile {program : Program} {b : Bytecode}
    (hcompile : compile program = .ok b) {fuel : Nat} {e : Evaluator.Error}
    (hfailed : (Evaluator.runAtFuel fuel program .start).ending = .failed e) :
    e.code ≠ "MAL-R007" ∧ e.code ≠ "MAL-R006" := by
  have hstart : Evaluator.Env.Provides [] [] := ⟨nofun, nofun⟩
  have hfault : e.IsFault :=
    Evaluator.isFault_of_runAtFuel hstart (scoped_of_compile hcompile) hfailed
  rcases hfault with hcode | hcode | hcode <;> rw [hcode] <;> decide

/-- A closure that is stored under `h` and reads `f` at each call, also when that has become a
number. -/
def redefinedCallee : Program :=
  [.define default "use" (.lambda default "g" (.apply default (.name default "g") (.nil default))),
    .define default "f" (.lambda default "x"
      (.ifElse default (.name default "x") (.name default "f")
        (.lambda default "use" (.apply default (.name default "f") (.name default "use"))))),
    .define default "h" (.apply default (.name default "use") (.name default "f")),
    .puts default (.apply default (.name default "h") (.integer default 1)),
    .define default "f" (.integer default 7),
    .puts default (.apply default (.name default "h") (.integer default 1))]

/-- The evaluation of `redefinedCallee` fails because a number is called, and not because a name is
missing. -/
theorem evaluation_error_redefinedCallee :
    (∃ b, compile redefinedCallee = .ok b) ∧
    (Evaluator.runAtFuel 4 redefinedCallee .start).ending
      = .failed ⟨.notCallable "integer", default⟩ ∧
    (⟨.notCallable "integer", default⟩ : Evaluator.Error).code ≠ "MAL-R007" ∧
    (⟨.notCallable "integer", default⟩ : Evaluator.Error).code ≠ "MAL-R006" := by
  have hfailed : (Evaluator.runAtFuel 4 redefinedCallee .start).ending
      = .failed ⟨.notCallable "integer", default⟩ := rfl
  obtain ⟨b, hcompile⟩ : ∃ b, compile redefinedCallee = .ok b := ⟨_, rfl⟩
  exact ⟨⟨b, hcompile⟩, hfailed, evaluation_error_of_compile hcompile hfailed⟩

end Duet
