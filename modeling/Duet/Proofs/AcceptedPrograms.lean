import Duet.Proofs.DefinedNames
import Duet.Proofs.PrintRoundTrip
import Mathlib.Tactic.MkIffOfInductiveProp

/-!
# Which programs are accepted

Whether a program can be compiled is decided in many places: names are looked up in nested scopes,
places in the pool and slots for globals are counted, and the target of a jump is known only when
the code in between has been emitted. `Program.Supported` says it without any of this, on the
syntax tree: which forms may occur, which names each occurrence may read, how many constants and
definitions there may be, and where in its block each else-part lies.

* `Expr.occurrences`, `Expr.codeLength`, `Expr.elseParts`, `Expr.constantCount`: what the conditions
  speak about, read off the tree.
* `Emission.Measures` and `Emission.Succeeds`: how much an emission adds, and where it succeeds. For
  each way to build emissions there is one lemma on either.
* `Expr.succeeds_emit_iff`: an expression is compiled without an error exactly if it is supported
  at its place.
* `compile_isOk_iff`: a program is accepted exactly if it is supported.
-/

namespace Duet

/-! ## What is read off a tree -/

/-- A place at which a name is read. -/
structure Occurrence where
  name : String
  /-- The parameters of the functions around the place, the innermost first. -/
  params : List String
deriving DecidableEq, Repr

namespace Occurrence

/-- The name is the parameter of the innermost function around the place. -/
def IsParam (occ : Occurrence) : Prop :=
  occ.params.head? = some occ.name

/-- The name can be read where the given globals are defined: it is the parameter of the innermost
function, or a global that no parameter hides. -/
def Resolves (names : List String) (occ : Occurrence) : Prop :=
  occ.IsParam ∨ (occ.name ∉ occ.params ∧ occ.name ∈ names)

end Occurrence

namespace Expr

/-- The places of an expression at which names are read, inside functions with the given
parameters. -/
@[simp] def occurrences (params : List String) : Expr → List Occurrence
  | .integer .. | .text .. | .boolean .. | .nil _ => []
  | .name _ x => [⟨x, params⟩]
  | .unary _ _ e => e.occurrences params
  | .binary _ _ l r => l.occurrences params ++ r.occurrences params
  | .ifThen _ c t => c.occurrences params ++ t.occurrences params
  | .ifElse _ c t e => c.occurrences params ++ t.occurrences params ++ e.occurrences params
  | .lambda _ param body => body.occurrences (param :: params)
  | .apply _ f a => f.occurrences params ++ a.occurrences params

/-- Whether there is code for an expression of this form: not for texts, and not for `and` and
`or`. -/
@[simp] def hasCode : Expr → Bool
  | .text .. | .binary _ .and _ _ | .binary _ .or _ _ => false
  | _ => true

/-- Whether an expression of this form takes a place in the pool: integers and functions do. -/
def takesConstant : Expr → Bool
  | .integer .. | .lambda .. => true
  | _ => false

/-- The number of integers and functions in an expression. -/
@[simp] def constantCount : Expr → Nat
  | .text .. | .boolean .. | .nil _ | .name .. => 0
  | .integer .. => 1
  | .unary _ _ e => e.constantCount
  | .binary _ _ l r | .ifThen _ l r => l.constantCount + r.constantCount
  | .ifElse _ c t e => c.constantCount + t.constantCount + e.constantCount
  | .lambda _ _ body => body.constantCount + 1
  | .apply _ f a => a.constantCount + f.constantCount

/-- The integers and functions among the subterms are all that take a place in the pool. -/
theorem countP_subterms (e : Expr) : e.subterms.countP takesConstant = e.constantCount := by
  induction e with
  | integer | text | boolean | nil | name => rfl
  | unary s op e ih => simp [subterms, takesConstant, constantCount, ih]
  | binary s op l r ihl ihr => simp [subterms, takesConstant, constantCount, ihl, ihr]
  | ifThen s c t ihc iht => simp [subterms, takesConstant, constantCount, ihc, iht]
  | ifElse s c t e ihc iht ihe =>
    simp [subterms, takesConstant, constantCount, ihc, iht, ihe, Nat.add_assoc]
  | lambda s param body ih => rw [subterms, List.countP_cons_of_pos rfl, ih, constantCount]
  | apply s f a ihf iha =>
    simp [subterms, takesConstant, constantCount, ihf, iha, Nat.add_comm]

/-- The number of bytes that an expression takes in its block. The code of a function is in a block
of its own. -/
@[simp] def codeLength : Expr → Nat
  | .text .. => 0
  | .boolean .. | .nil _ => 1
  | .integer .. | .name .. | .lambda .. => 2
  | .unary _ _ e => e.codeLength + 1
  | .binary _ _ l r => l.codeLength + r.codeLength + 1
  | .ifThen _ c t => c.codeLength + 3 + t.codeLength + 3 + 1
  | .ifElse _ c t e => c.codeLength + 3 + t.codeLength + 3 + e.codeLength
  | .apply _ f a => a.codeLength + f.codeLength + 1

/-- For every conditional in an expression that stands at the given offset of its block, the offset
at which its else-part starts and the one at which it ends, in the block in which the conditional
is. A missing else-part takes one byte. -/
@[simp] def elseParts (offset : Nat) : Expr → List (Nat × Nat)
  | .integer .. | .text .. | .boolean .. | .nil _ | .name .. => []
  | .unary _ _ e => e.elseParts offset
  | .binary _ _ l r => l.elseParts offset ++ r.elseParts (offset + l.codeLength)
  | .ifThen _ c t =>
    let start := offset + c.codeLength + 3 + t.codeLength + 3
    c.elseParts offset ++ t.elseParts (offset + c.codeLength + 3) ++ [(start, start + 1)]
  | .ifElse _ c t e =>
    let start := offset + c.codeLength + 3 + t.codeLength + 3
    c.elseParts offset ++ t.elseParts (offset + c.codeLength + 3) ++ e.elseParts start
      ++ [(start, start + e.codeLength)]
  | .lambda _ _ body => body.elseParts 0
  | .apply _ f a => a.elseParts offset ++ f.elseParts (offset + a.codeLength)

end Expr

/-- The number of bytes that a statement takes in the main block. -/
def Stmt.codeLength : Stmt → Nat
  | .define _ _ value => value.codeLength + 2
  | .puts _ value | .expression value => value.codeLength + 1

/-- The else-parts of all conditionals in a program whose code starts at the given offset. -/
def Program.elseParts (offset : Nat) : Program → List (Nat × Nat)
  | [] => []
  | stmt :: stmts =>
    stmt.value.elseParts offset ++ Program.elseParts (offset + stmt.codeLength) stmts

/-- The programs for which there is code. -/
structure Program.Supported (program : Program) : Prop where
  /-- There are no texts. -/
  noText : ∀ s v, Expr.text s v ∉ Program.subterms program
  /-- The operators `and` and `or` are not used. -/
  noLogic : ∀ s l r, Expr.binary s .and l r ∉ Program.subterms program ∧
    Expr.binary s .or l r ∉ Program.subterms program
  /-- Inside functions, the parameter of a function further out is not read. -/
  noCapture : ∀ stmt ∈ program, ∀ occ ∈ stmt.value.occurrences [], occ.params ≠ [] →
    occ.IsParam ∨ occ.name ∉ occ.params
  /-- Every other name that is read has been defined by an earlier statement, or is being defined
  as a function. -/
  defined : ∀ before stmt after, program = before ++ stmt :: after →
    ∀ occ ∈ stmt.value.occurrences [], ¬occ.IsParam →
      occ.name ∈ Program.definedNames before ∨
        ∃ s value, stmt = .define s occ.name value ∧ value.isLambda = true
  /-- There are at most 256 integers and functions. -/
  constants : (Program.subterms program).countP Expr.takesConstant ≤ 256
  /-- There are at most 256 definitions. -/
  definitions : (Program.definedNames program).length ≤ 256
  /-- No else-part starts or ends beyond the largest target of a jump. -/
  jumps : ∀ part ∈ Program.elseParts 0 program, part.1 ≤ 65535 ∧ part.2 ≤ 65535

/-! ## Emissions that succeed -/

namespace Emission

/-- The emission succeeds. -/
def Succeeds (E : Emission) (offset pool : Nat) : Prop :=
  ∃ code constants, E.Yields offset pool code constants

/-- Wherever the emission succeeds, it adds `size` bytes of code and `count` constants. -/
def Measures (E : Emission) (size count : Nat) : Prop :=
  ∀ ⦃offset pool code constants⦄, E.Yields offset pool code constants →
    codeSize code = size ∧ constants.length = count

/-- The measures of an emission, written in another way. -/
theorem Measures.of_eq {E : Emission} {m n i j : Nat} (h : E.Measures m i) (hm : m = n)
    (hi : i = j) : E.Measures n j :=
  hm ▸ hi ▸ h

/-- An instruction adds its own bytes and no constant. -/
theorem measures_instr (i : Instr) : (instr i).Measures i.size 0 := by
  intro o p c k h
  obtain ⟨rfl, rfl⟩ := yields_instr h
  exact ⟨rfl, rfl⟩

/-- An instruction is emitted everywhere. -/
theorem succeeds_instr (i : Instr) (o p : Nat) : (instr i).Succeeds o p :=
  ⟨[i], [], rfl⟩

/-- An emission that fails has every measure, since it never succeeds. -/
theorem measures_fail (e : CompileError) (size count : Nat) : (fail e).Measures size count := by
  intro o p c k h
  exact absurd h not_yields_fail

/-- An emission that fails succeeds nowhere. -/
theorem not_succeeds_fail (e : CompileError) (o p : Nat) : ¬(fail e).Succeeds o p := by
  rintro ⟨c, k, h⟩
  exact not_yields_fail h

/-- A constant adds two bytes of code and itself. -/
theorem measures_constant (v : Constant) (s : Span) : (constant v s).Measures 2 1 := by
  intro o p c k h
  obtain ⟨-, rfl, rfl⟩ := yields_constant h
  exact ⟨rfl, rfl⟩

/-- A constant can be emitted as long as there is a free place in the pool. -/
theorem succeeds_constant_iff {v : Constant} {s : Span} {o p : Nat} :
    (constant v s).Succeeds o p ↔ p < maxSlots := by
  constructor
  · rintro ⟨c, k, h⟩
    exact (yields_constant h).1
  · intro hp
    exact ⟨_, _, if_pos hp⟩

/-- The measures of two emissions in a row add up. -/
theorem Measures.andThen {E F : Emission} {m n i j : Nat} (hE : E.Measures m i)
    (hF : F.Measures n j) : (E.andThen F).Measures (m + n) (i + j) := by
  intro o p c k h
  obtain ⟨c₁, k₁, c₂, k₂, h₁, h₂, rfl, rfl⟩ := yields_andThen h
  rw [codeSize_append, List.length_append, (hE h₁).1, (hE h₁).2, (hF h₂).1, (hF h₂).2]
  exact ⟨rfl, rfl⟩

/-- Two emissions in a row give the code and the constants of both, if the second is made where the
first one ends. -/
theorem yields_andThen_of {E F : Emission} {o p : Nat} {c₁ c₂ : List Instr} {k₁ k₂ : List Constant}
    (h₁ : E.Yields o p c₁ k₁) (h₂ : F.Yields (o + codeSize c₁) (p + k₁.length) c₂ k₂) :
    (E.andThen F).Yields o p (c₁ ++ c₂) (k₁ ++ k₂) := by
  unfold Yields at h₁ h₂ ⊢
  unfold andThen
  simp only [h₁, h₂]

/-- Two emissions in a row succeed if the first does and the second does where the first one
ends. -/
theorem succeeds_andThen_iff {E F : Emission} {m i o p : Nat} (hE : E.Measures m i) :
    (E.andThen F).Succeeds o p ↔ E.Succeeds o p ∧ F.Succeeds (o + m) (p + i) := by
  constructor
  · rintro ⟨c, k, h⟩
    obtain ⟨c₁, k₁, c₂, k₂, h₁, h₂, rfl, rfl⟩ := yields_andThen h
    obtain ⟨rfl, rfl⟩ := hE h₁
    exact ⟨⟨c₁, k₁, h₁⟩, ⟨c₂, k₂, h₂⟩⟩
  · rintro ⟨⟨c₁, k₁, h₁⟩, ⟨c₂, k₂, h₂⟩⟩
    obtain ⟨rfl, rfl⟩ := hE h₁
    exact ⟨c₁ ++ c₂, k₁ ++ k₂, yields_andThen_of h₁ h₂⟩

/-- The two arms of a conditional are emitted with a jump of three bytes in front of each. -/
theorem Measures.branches {A B : Emission} {m n i j : Nat} (s : Span) (hA : A.Measures m i)
    (hB : B.Measures n j) : (branches s A B).Measures (3 + m + 3 + n) (i + j) := by
  intro o p c k h
  obtain ⟨c₁, k₁, c₂, k₂, h₁, h₂, -, rfl, rfl⟩ := yields_branches h
  simp only [codeSize_cons, codeSize_append, Instr.size, List.length_append, (hA h₁).1, (hA h₁).2,
    (hB h₂).1, (hB h₂).2, and_true]
  omega

/-- Both arms have to succeed where they stand, and the second one has to start and to end where a
jump can lead. -/
theorem succeeds_branches_iff {A B : Emission} {m n i j o p : Nat} {s : Span}
    (hA : A.Measures m i) (hB : B.Measures n j) :
    (branches s A B).Succeeds o p ↔ A.Succeeds (o + 3) p ∧ o + 3 + m + 3 ≤ maxTarget ∧
      B.Succeeds (o + 3 + m + 3) (p + i) ∧ o + 3 + m + 3 + n ≤ maxTarget := by
  constructor
  · rintro ⟨c, k, h⟩
    obtain ⟨c₁, k₁, c₂, k₂, h₁, h₂, hle, rfl, rfl⟩ := yields_branches h
    obtain ⟨rfl, rfl⟩ := hA h₁
    obtain ⟨rfl, rfl⟩ := hB h₂
    exact ⟨⟨c₁, k₁, h₁⟩, by omega, ⟨c₂, k₂, h₂⟩, hle⟩
  · rintro ⟨⟨c₁, k₁, h₁⟩, hstart, ⟨c₂, k₂, h₂⟩, hstop⟩
    obtain ⟨rfl, rfl⟩ := hA h₁
    obtain ⟨rfl, rfl⟩ := hB h₂
    refine ⟨.jumpIfNotTrue (o + 3 + codeSize c₁ + 3).toUInt16 ::
      (c₁ ++ .jump (o + 3 + codeSize c₁ + 3 + codeSize c₂).toUInt16 :: c₂), k₁ ++ k₂, ?_⟩
    unfold Yields at h₁ h₂ ⊢
    unfold branches
    simp only [h₁, h₂, if_neg (Nat.not_lt.mpr hstart), if_neg (Nat.not_lt.mpr hstop)]
    rfl

/-- A function adds two bytes to the block around it, and one constant behind those of its body. -/
theorem Measures.function {B : Emission} {m i : Nat} (s : Span) (hB : B.Measures m i) :
    (function s B).Measures 2 (i + 1) := by
  intro o p c k h
  obtain ⟨c₁, k₁, h₁, -, rfl, rfl⟩ := yields_function h
  rw [List.length_append, (hB h₁).2]
  exact ⟨rfl, rfl⟩

/-- A function is emitted if its body is, in a block of its own, and a place in the pool is left for
it. -/
theorem succeeds_function_iff {B : Emission} {m i o p : Nat} {s : Span} (hB : B.Measures m i) :
    (function s B).Succeeds o p ↔ B.Succeeds 0 p ∧ p + i < maxSlots := by
  constructor
  · rintro ⟨c, k, h⟩
    obtain ⟨c₁, k₁, h₁, hlt, rfl, rfl⟩ := yields_function h
    obtain ⟨rfl, rfl⟩ := hB h₁
    exact ⟨⟨c₁, k₁, h₁⟩, hlt⟩
  · rintro ⟨⟨c₁, k₁, h₁⟩, hlt⟩
    obtain ⟨rfl, rfl⟩ := hB h₁
    refine ⟨[.constant (p + k₁.length).toUInt8],
      k₁ ++ [.function (.ofInstrs (c₁ ++ [.return_]))], ?_⟩
    unfold Yields at h₁ ⊢
    unfold function constant
    simp only [h₁, if_pos hlt]

end Emission

/-! ## Expressions -/

namespace Expr

open Emission

/-- How much an expression adds to its block and to the pool. -/
theorem measures_emit (e : Expr) (scope : Scope) :
    (e.emit scope).Measures e.codeLength e.constantCount := by
  induction e generalizing scope with
  | integer s n => exact measures_constant _ _
  | text s v => exact measures_fail _ _ _
  | boolean s b => exact measures_instr _
  | nil s => exact measures_instr _
  | name s x =>
    show (scope.emitName x s).Measures 2 0
    unfold Scope.emitName
    split
    · exact measures_fail _ _ _
    · exact measures_instr _
    · exact measures_instr _
    · exact measures_fail _ _ _
  | unary s op e ih =>
    have hop : op.instr.size = 1 := by cases op <;> rfl
    exact ((ih scope).andThen (measures_instr op.instr)).of_eq (by rw [hop, codeLength]) rfl
  | binary s op l r ihl ihr =>
    rw [emit]
    cases hop : op.instr? with
    | none => exact measures_fail _ _ _
    | some i =>
      have hi : i.size = 1 := by
        cases op <;> simp only [BinaryOp.instr?, Option.some.injEq, reduceCtorEq] at hop <;>
          subst hop <;> rfl
      refine ((ihl scope).andThen ((ihr scope).andThen (measures_instr i))).of_eq ?_ rfl
      rw [hi, codeLength, Nat.add_assoc]
  | ifThen s c t ihc iht =>
    refine ((ihc scope).andThen ((iht scope).branches s (measures_instr .nil))).of_eq ?_ rfl
    simp only [codeLength, Instr.size]
    omega
  | ifElse s c t e ihc iht ihe =>
    refine ((ihc scope).andThen ((iht scope).branches s (ihe scope))).of_eq ?_ ?_
    · simp only [codeLength]
      omega
    · rw [constantCount, Nat.add_assoc]
  | lambda s param body ih => exact (ih (scope.enclose.define param)).function s
  | apply s f a ihf iha =>
    refine ((iha scope).andThen ((ihf scope).andThen (measures_instr .call))).of_eq ?_ rfl
    rw [codeLength, Nat.add_assoc]
    rfl

/-- The expression can be compiled inside functions with the given parameters, where the given
globals are defined, at the given offset and with the given number of constants before it. -/
@[mk_iff]
structure SupportedAt (names params : List String) (offset pool : Nat) (e : Expr) : Prop where
  hasCode : ∀ u ∈ e.subterms, u.hasCode = true
  resolves : ∀ occ ∈ e.occurrences params, occ.Resolves names
  constants : pool + e.constantCount ≤ maxSlots
  jumps : ∀ part ∈ e.elseParts offset, part.1 ≤ maxTarget ∧ part.2 ≤ maxTarget

section supported

variable {names params : List String} {o p : Nat}

/-- An operator with one operand can be compiled wherever its operand can. -/
theorem supportedAt_unary_iff {s : Span} {op : UnaryOp} {e : Expr} :
    (Expr.unary s op e).SupportedAt names params o p ↔ e.SupportedAt names params o p := by
  simp only [supportedAt_iff, subterms, occurrences, constantCount, elseParts, hasCode,
    List.forall_mem_cons, true_and]

/-- An operator with two operands can be compiled where it has code and both operands can, the right
one behind the left one. -/
theorem supportedAt_binary_iff {s : Span} {op : BinaryOp} {l r : Expr} :
    (Expr.binary s op l r).SupportedAt names params o p ↔
      (Expr.binary s op l r).hasCode = true ∧ l.SupportedAt names params o p ∧
        r.SupportedAt names params (o + l.codeLength) (p + l.constantCount) := by
  simp only [supportedAt_iff, subterms, occurrences, constantCount, elseParts,
    List.forall_mem_cons, List.forall_mem_append]
  constructor
  · rintro ⟨⟨hop, hl, hr⟩, ⟨hlo, hro⟩, hconst, hlj, hrj⟩
    exact ⟨hop, ⟨hl, hlo, by omega, hlj⟩, hr, hro, by omega, hrj⟩
  · rintro ⟨hop, ⟨hl, hlo, -, hlj⟩, hr, hro, hconst, hrj⟩
    exact ⟨⟨hop, hl, hr⟩, ⟨hlo, hro⟩, by omega, hlj, hrj⟩

/-- A conditional without an else-part can be compiled where both of its parts can, behind the jumps
in front of them, and both jumps reach their targets. -/
theorem supportedAt_ifThen_iff {s : Span} {c t : Expr} :
    (Expr.ifThen s c t).SupportedAt names params o p ↔
      c.SupportedAt names params o p ∧
        t.SupportedAt names params (o + c.codeLength + 3) (p + c.constantCount) ∧
        o + c.codeLength + 3 + t.codeLength + 3 + 1 ≤ maxTarget := by
  simp only [supportedAt_iff, subterms, occurrences, constantCount, elseParts, hasCode,
    List.forall_mem_cons, List.forall_mem_append, List.not_mem_nil, false_implies, implies_true,
    true_and, and_true]
  constructor
  · rintro ⟨⟨hc, ht⟩, ⟨hco, hto⟩, hconst, ⟨hcj, htj⟩, -, hstop⟩
    exact ⟨⟨hc, hco, by omega, hcj⟩, ⟨ht, hto, by omega, htj⟩, hstop⟩
  · rintro ⟨⟨hc, hco, -, hcj⟩, ⟨ht, hto, hconst, htj⟩, hstop⟩
    exact ⟨⟨hc, ht⟩, ⟨hco, hto⟩, by omega, ⟨hcj, htj⟩, by omega, hstop⟩

/-- A conditional can be compiled where its three parts can, behind the jumps in front of them, and
both jumps reach their targets. -/
theorem supportedAt_ifElse_iff {s : Span} {c t e : Expr} :
    (Expr.ifElse s c t e).SupportedAt names params o p ↔
      c.SupportedAt names params o p ∧
        t.SupportedAt names params (o + c.codeLength + 3) (p + c.constantCount) ∧
        e.SupportedAt names params (o + c.codeLength + 3 + t.codeLength + 3)
          (p + c.constantCount + t.constantCount) ∧
        o + c.codeLength + 3 + t.codeLength + 3 + e.codeLength ≤ maxTarget := by
  simp only [supportedAt_iff, subterms, occurrences, constantCount, elseParts, hasCode,
    List.forall_mem_cons, List.forall_mem_append, List.not_mem_nil, false_implies, implies_true,
    true_and, and_true]
  constructor
  · rintro ⟨⟨⟨hc, ht⟩, he⟩, ⟨⟨hco, hto⟩, heo⟩, hconst, ⟨⟨hcj, htj⟩, hej⟩, -, hstop⟩
    exact ⟨⟨hc, hco, by omega, hcj⟩, ⟨ht, hto, by omega, htj⟩, ⟨he, heo, by omega, hej⟩, hstop⟩
  · rintro ⟨⟨hc, hco, -, hcj⟩, ⟨ht, hto, -, htj⟩, ⟨he, heo, hconst, hej⟩, hstop⟩
    exact ⟨⟨⟨hc, ht⟩, he⟩, ⟨⟨hco, hto⟩, heo⟩, by omega, ⟨⟨hcj, htj⟩, hej⟩, by omega, hstop⟩

/-- A function takes a place in the pool behind the constants of its body, whose code begins a block
of its own. -/
theorem supportedAt_lambda_iff {s : Span} {param : String} {body : Expr} :
    (Expr.lambda s param body).SupportedAt names params o p ↔
      body.SupportedAt names (param :: params) 0 p ∧ p + body.constantCount < maxSlots := by
  simp only [supportedAt_iff, subterms, occurrences, constantCount, elseParts, hasCode,
    List.forall_mem_cons, true_and]
  constructor
  · rintro ⟨hb, hbo, hconst, hbj⟩
    exact ⟨⟨hb, hbo, by omega, hbj⟩, by omega⟩
  · rintro ⟨⟨hb, hbo, -, hbj⟩, hconst⟩
    exact ⟨hb, hbo, by omega, hbj⟩

/-- An application can be compiled where its argument can, and its function behind it. -/
theorem supportedAt_apply_iff {s : Span} {f a : Expr} :
    (Expr.apply s f a).SupportedAt names params o p ↔
      a.SupportedAt names params o p ∧
        f.SupportedAt names params (o + a.codeLength) (p + a.constantCount) := by
  simp only [supportedAt_iff, subterms, occurrences, constantCount, elseParts, hasCode,
    List.forall_mem_cons, List.forall_mem_append, true_and]
  constructor
  · rintro ⟨⟨hf, ha⟩, ⟨hfo, hao⟩, hconst, haj, hfj⟩
    exact ⟨⟨ha, hao, by omega, haj⟩, hf, hfo, by omega, hfj⟩
  · rintro ⟨⟨ha, hao, -, haj⟩, hf, hfo, hconst, hfj⟩
    exact ⟨⟨hf, ha⟩, ⟨hfo, hao⟩, by omega, haj, hfj⟩

/-- A name is read without an error exactly if it resolves. -/
theorem succeeds_emitName_iff {s : Span} {x : String} :
    ((Scope.within (.ofNames names) params).emitName x s).Succeeds o p ↔
      Occurrence.Resolves names ⟨x, params⟩ := by
  constructor
  · intro h
    unfold Scope.emitName at h
    split at h
    · exact absurd h (not_succeeds_fail _ _ _)
    · next i hres =>
      obtain ⟨hx, hslot⟩ := Scope.resolve?_within_eq_global_iff.mp hres
      exact .inr ⟨hx, SlotTable.exists_slot?_ofNames_iff.mp ⟨i, hslot⟩⟩
    · next i hres => exact .inl (Scope.resolve?_within_eq_local_iff.mp hres).1
    · exact absurd h (not_succeeds_fail _ _ _)
  · rintro (hparam | ⟨hx, hdefined⟩)
    · have hres := Scope.resolve?_within_eq_local_iff (T := .ofNames names).mpr ⟨hparam, rfl⟩
      rw [Scope.emitName, hres]
      exact succeeds_instr _ _ _
    · obtain ⟨i, hslot⟩ := SlotTable.exists_slot?_ofNames_iff.mpr hdefined
      have hres := Scope.resolve?_within_eq_global_iff.mpr ⟨hx, hslot⟩
      rw [Scope.emitName, hres]
      exact succeeds_instr _ _ _

/-- **An expression is compiled without an error exactly if it is supported** where it stands. -/
theorem succeeds_emit_iff (e : Expr) (hp : p ≤ maxSlots) :
    (e.emit (Scope.within (.ofNames names) params)).Succeeds o p ↔
      e.SupportedAt names params o p := by
  induction e generalizing params o p with
  | integer s n =>
    rw [emit, succeeds_constant_iff]
    constructor
    · intro hlt
      exact ⟨by simp [subterms, hasCode], by simp [occurrences], hlt, by simp [elseParts]⟩
    · intro h
      exact h.constants
  | text s v =>
    rw [emit]
    constructor
    · intro h
      exact absurd h (not_succeeds_fail _ _ _)
    · intro h
      exact absurd (h.hasCode _ (List.mem_singleton.mpr rfl)) Bool.false_ne_true
  | boolean s b | nil s =>
    rw [emit]
    simp [supportedAt_iff, subterms, occurrences, constantCount, elseParts, hasCode, hp,
      succeeds_instr]
  | name s x =>
    rw [emit, succeeds_emitName_iff]
    simp [supportedAt_iff, subterms, occurrences, constantCount, elseParts, hasCode, hp]
  | unary s op e ih =>
    rw [emit, succeeds_andThen_iff (e.measures_emit _), ih hp, supportedAt_unary_iff]
    exact and_iff_left (succeeds_instr _ _ _)
  | binary s op l r ihl ihr =>
    rw [supportedAt_binary_iff, emit]
    -- the operators without an instruction are those without code
    cases hop : op.instr? with
    | none =>
      constructor
      · intro h
        exact absurd h (not_succeeds_fail _ _ _)
      · rintro ⟨hcode, -⟩
        cases op <;> simp_all [BinaryOp.instr?, hasCode]
    | some i =>
      have hcode : (Expr.binary s op l r).hasCode = true := by
        cases op <;> simp_all [BinaryOp.instr?, hasCode]
      rw [succeeds_andThen_iff (l.measures_emit _), ihl hp]
      constructor
      · rintro ⟨hl, h⟩
        obtain ⟨hr, -⟩ := (succeeds_andThen_iff (r.measures_emit _)).mp h
        exact ⟨hcode, hl, (ihr hl.constants).mp hr⟩
      · rintro ⟨-, hl, hr⟩
        refine ⟨hl, (succeeds_andThen_iff (r.measures_emit _)).mpr ⟨?_, succeeds_instr _ _ _⟩⟩
        exact (ihr hl.constants).mpr hr
  | ifThen s c t ihc iht =>
    have hbranches := succeeds_branches_iff (s := s) (o := o + c.codeLength)
      (p := p + c.constantCount) (t.measures_emit (Scope.within (.ofNames names) params))
      (measures_instr .nil)
    rw [emit, succeeds_andThen_iff (c.measures_emit _), ihc hp, hbranches, supportedAt_ifThen_iff]
    constructor
    · rintro ⟨hc, ht, -, -, hstop⟩
      exact ⟨hc, (iht hc.constants).mp ht, hstop⟩
    · rintro ⟨hc, ht, hstop⟩
      exact ⟨hc, (iht hc.constants).mpr ht, Nat.le_of_succ_le hstop, succeeds_instr _ _ _, hstop⟩
  | ifElse s c t e ihc iht ihe =>
    have hbranches := succeeds_branches_iff (s := s) (o := o + c.codeLength)
      (p := p + c.constantCount) (t.measures_emit (Scope.within (.ofNames names) params))
      (e.measures_emit (Scope.within (.ofNames names) params))
    rw [emit, succeeds_andThen_iff (c.measures_emit _), ihc hp, hbranches, supportedAt_ifElse_iff]
    constructor
    · rintro ⟨hc, ht, -, he, hstop⟩
      have ht := (iht hc.constants).mp ht
      exact ⟨hc, ht, (ihe ht.constants).mp he, hstop⟩
    · rintro ⟨hc, ht, he, hstop⟩
      exact ⟨hc, (iht hc.constants).mpr ht, Nat.le_of_add_right_le hstop,
        (ihe ht.constants).mpr he, hstop⟩
  | lambda s param body ih =>
    rw [emit, succeeds_function_iff (body.measures_emit _), supportedAt_lambda_iff]
    -- the body is in a block of its own, where offsets start from zero again
    exact and_congr_left fun _ => @ih (param :: params) 0 p hp
  | apply s f a ihf iha =>
    rw [emit, succeeds_andThen_iff (a.measures_emit _), iha hp, supportedAt_apply_iff]
    constructor
    · rintro ⟨ha, h⟩
      obtain ⟨hf, -⟩ := (succeeds_andThen_iff (f.measures_emit _)).mp h
      exact ⟨ha, (ihf ha.constants).mp hf⟩
    · rintro ⟨ha, hf⟩
      refine ⟨ha, (succeeds_andThen_iff (f.measures_emit _)).mpr ⟨?_, succeeds_instr _ _ _⟩⟩
      exact (ihf ha.constants).mpr hf

end supported

end Expr

/-! ## Programs -/

/-- The instruction that ends a statement, when the given number of globals is defined in front of
it: a definition stores its value in the next slot, every other statement shows it. -/
def Stmt.closing (count : Nat) : Stmt → Instr
  | .define .. => .setGlobal count.toUInt8
  | .puts .. | .expression _ => .pop

/-- A statement takes the bytes of its value and those of the instruction that ends it. -/
theorem Stmt.codeLength_eq (stmt : Stmt) (count : Nat) :
    stmt.codeLength = stmt.value.codeLength + (stmt.closing count).size := by
  cases stmt <;> rfl

open Emission

/-- A statement is compiled without an error if its value is and, for a definition, if there is a
slot left. -/
theorem Stmt.emit_eq_ok_iff {stmt : Stmt} {names : List String} {o p : Nat} {c : List Instr}
    {k : List Constant} {scope : Scope} :
    stmt.emit (Scope.ofNames names) o p = (⟨c, k, none⟩, scope) ↔
      ∃ c₁, (stmt.value.emit (Scope.ofNames (stmt.visibleNames names))).Yields o p c₁ k ∧
        (stmt.definedName? ≠ none → names.length < maxSlots) ∧
        c = c₁ ++ [stmt.closing names.length] ∧ scope = Scope.ofNames (stmt.namesAfter names) := by
  rw [← Scope.visible_ofNames, ← Scope.scopeAfter_ofNames]
  have hcount : (SlotTable.ofNames names).count = names.length := SlotTable.count_ofNames names
  cases stmt with
  | define s x value =>
    constructor
    · intro h
      obtain ⟨c₁, hvalue, hslot, rfl, rfl⟩ := emitDefine_ok h
      rw [hcount] at hslot ⊢
      exact ⟨c₁, hvalue, fun _ => hslot, rfl, rfl⟩
    · rintro ⟨c₁, hvalue, hslot, rfl, rfl⟩
      have hlt : (SlotTable.ofNames names).count < maxSlots := hcount ▸ hslot (by simp [definedName?])
      show emitDefine s x value (Scope.ofNames names) o p = _
      unfold Yields at hvalue
      simp only [Stmt.visible, Stmt.value] at hvalue
      unfold emitDefine
      simp only [hvalue]
      rw [← hcount]
      exact if_pos hlt
  | puts s value | expression value =>
    constructor
    · intro h
      obtain ⟨c₁, hvalue, rfl, rfl⟩ := shown_ok h
      exact ⟨c₁, hvalue, by simp [definedName?], rfl, rfl⟩
    · rintro ⟨c₁, hvalue, -, rfl, rfl⟩
      have hpop : (instr .pop).Yields (o + codeSize c₁) (p + k.length) [.pop] [] := rfl
      have := yields_andThen_of hvalue hpop
      rw [List.append_nil] at this
      exact Prod.ext this rfl

namespace Program

/-- The program is compiled without an error behind definitions of the given names. -/
def Succeeds (names : List String) (offset pool : Nat) (program : Program) : Prop :=
  ∃ code constants scope,
    Program.emit program (Scope.ofNames names) offset pool = (⟨code, constants, none⟩, scope)

/-- The empty program is compiled without an error. -/
theorem succeeds_nil (names : List String) (o p : Nat) : Succeeds names o p [] :=
  ⟨[], [], _, rfl⟩

/-- A program is compiled if the value of its first statement is, a slot is left for the name that
the statement defines, and the rest is compiled behind it. -/
theorem succeeds_cons_iff {names : List String} {o p : Nat} {stmt : Stmt} {stmts : Program} :
    Succeeds names o p (stmt :: stmts) ↔
      (stmt.value.emit (Scope.ofNames (stmt.visibleNames names))).Succeeds o p ∧
      (stmt.definedName? ≠ none → names.length < maxSlots) ∧
      Succeeds (stmt.namesAfter names) (o + stmt.codeLength) (p + stmt.value.constantCount)
        stmts := by
  have hsize {c₁ : List Instr} {k : List Constant}
      (h : (stmt.value.emit (Scope.ofNames (stmt.visibleNames names))).Yields o p c₁ k) :
      codeSize (c₁ ++ [stmt.closing names.length]) = stmt.codeLength ∧
        k.length = stmt.value.constantCount := by
    obtain ⟨hcode, hconstants⟩ := stmt.value.measures_emit _ h
    rw [codeSize_append, hcode, stmt.codeLength_eq names.length]
    exact ⟨rfl, hconstants⟩
  constructor
  · rintro ⟨c, k, scope, h⟩
    obtain ⟨c₁, k₁, σ, c₂, k₂, hstmt, hrest, rfl, rfl⟩ := programEmit_cons_ok h
    obtain ⟨c₀, hvalue, hslot, rfl, rfl⟩ := Stmt.emit_eq_ok_iff.mp hstmt
    obtain ⟨hcode, hconstants⟩ := hsize hvalue
    rw [hcode, hconstants] at hrest
    exact ⟨⟨c₀, k₁, hvalue⟩, hslot, c₂, k₂, scope, hrest⟩
  · rintro ⟨⟨c₀, k₁, hvalue⟩, hslot, c₂, k₂, scope, hrest⟩
    obtain ⟨hcode, hconstants⟩ := hsize hvalue
    rw [← hcode, ← hconstants] at hrest
    have hstmt := Stmt.emit_eq_ok_iff.mpr ⟨c₀, hvalue, hslot, rfl, rfl⟩
    refine ⟨c₀ ++ [stmt.closing names.length] ++ c₂, k₁ ++ k₂, scope, ?_⟩
    rw [Program.emit, hstmt]
    simp only [hrest]

/-- What a program has to satisfy behind definitions of the given names. It is `Supported` in a form
that can be followed from statement to statement. -/
@[mk_iff]
structure SupportedAt (names : List String) (offset pool : Nat) (program : Program) : Prop where
  hasCode : ∀ u ∈ Program.subterms program, u.hasCode = true
  resolves : ∀ before stmt after, program = before ++ stmt :: after →
    ∀ occ ∈ stmt.value.occurrences [],
      occ.Resolves (stmt.visibleNames (names ++ Program.definedNames before))
  constants : pool + (Program.subterms program).countP Expr.takesConstant ≤ maxSlots
  definitions : names.length + (Program.definedNames program).length ≤ maxSlots
  jumps : ∀ part ∈ Program.elseParts offset program, part.1 ≤ maxTarget ∧ part.2 ≤ maxTarget

/-- What holds of every statement of a program holds of the first, and of those that follow. -/
theorem forall_split_cons_iff {P : Program → Stmt → Prop} {stmt : Stmt} {stmts : Program} :
    (∀ before s after, stmt :: stmts = before ++ s :: after → P before s) ↔
      P [] stmt ∧ ∀ before s after, stmts = before ++ s :: after → P (stmt :: before) s := by
  constructor
  · intro h
    exact ⟨h [] stmt stmts rfl, fun before s after hs => h (stmt :: before) s after (by rw [hs]; rfl)⟩
  · rintro ⟨hfirst, hrest⟩ before s after hs
    cases before with
    | nil =>
      obtain ⟨rfl, -⟩ := List.cons.inj hs
      exact hfirst
    | cons s₀ before =>
      obtain ⟨rfl, htail⟩ := List.cons.inj hs
      exact hrest before s after htail

/-- The subterms of a program are those of its first statement and those of the rest. -/
theorem subterms_cons (stmt : Stmt) (stmts : Program) :
    Program.subterms (stmt :: stmts) = stmt.value.subterms ++ Program.subterms stmts :=
  List.flatMap_cons

/-- What a program has to satisfy is a condition on the first statement and one on the rest behind
it. -/
theorem supportedAt_cons_iff {names : List String} {o p : Nat} {stmt : Stmt} {stmts : Program} :
    SupportedAt names o p (stmt :: stmts) ↔
      stmt.value.SupportedAt (stmt.visibleNames names) [] o p ∧
      (stmt.definedName? ≠ none → names.length < maxSlots) ∧
      SupportedAt (stmt.namesAfter names) (o + stmt.codeLength) (p + stmt.value.constantCount)
        stmts := by
  have hnone : names ++ Program.definedNames [] = names := List.append_nil names
  have hafter := append_definedNames_cons names stmt
  have hlength : (stmt.namesAfter names).length = names.length + stmt.definedName?.toList.length :=
    List.length_append
  have hslot : stmt.definedName? ≠ none → stmt.definedName?.toList.length = 1 := by
    cases stmt <;> simp [Stmt.definedName?]
  simp only [supportedAt_iff, Expr.supportedAt_iff, subterms_cons, definedNames_cons, elseParts,
    List.forall_mem_append, List.countP_append, List.length_append, Expr.countP_subterms, hlength]
  constructor
  · rintro ⟨⟨hcode, hcodes⟩, hresolves, hconstants, hdefinitions, hjump, hjumps⟩
    obtain ⟨hfirst, hrest⟩ := forall_split_cons_iff.mp hresolves
    rw [hnone] at hfirst
    simp only [hafter] at hrest
    refine ⟨⟨hcode, hfirst, by omega, hjump⟩, fun hname => ?_, hcodes, hrest, by omega, by omega,
      hjumps⟩
    have := hslot hname
    omega
  · rintro ⟨⟨hcode, hfirst, -, hjump⟩, -, hcodes, hrest, hconstants, hdefinitions, hjumps⟩
    refine ⟨⟨hcode, hcodes⟩, forall_split_cons_iff.mpr ⟨?_, ?_⟩, by omega, by omega, hjump, hjumps⟩
    · rw [hnone]
      exact hfirst
    · simp only [hafter]
      exact hrest

/-- A program is compiled without an error exactly if it is supported where it stands. -/
theorem succeeds_iff {names : List String} {o p : Nat} {program : Program}
    (hnames : names.length ≤ maxSlots) (hp : p ≤ maxSlots) :
    Succeeds names o p program ↔ SupportedAt names o p program := by
  induction program generalizing names o p with
  | nil =>
    refine iff_of_true (succeeds_nil names o p) ?_
    exact ⟨nofun, by simp, hp, hnames, nofun⟩
  | cons stmt stmts ih =>
    have hvalue : (stmt.value.emit (Scope.ofNames (stmt.visibleNames names))).Succeeds o p ↔
        stmt.value.SupportedAt (stmt.visibleNames names) [] o p :=
      @Expr.succeeds_emit_iff (stmt.visibleNames names) [] o p stmt.value hp
    rw [succeeds_cons_iff, supportedAt_cons_iff, hvalue]
    refine and_congr_right fun hstmt => and_congr_right fun hslot => ih ?_ hstmt.constants
    exact Stmt.length_namesAfter_le hnames hslot

/-- There is code for every expression of a program that has no texts and does not use `and` and
`or`. -/
theorem forall_hasCode_iff {program : Program} :
    (∀ u ∈ Program.subterms program, u.hasCode = true) ↔
      (∀ s v, Expr.text s v ∉ Program.subterms program) ∧
        ∀ s l r, Expr.binary s .and l r ∉ Program.subterms program ∧
          Expr.binary s .or l r ∉ Program.subterms program := by
  constructor
  · intro h
    refine ⟨fun s v hu => ?_, fun s l r => ⟨fun hu => ?_, fun hu => ?_⟩⟩ <;>
      exact Bool.false_ne_true (h _ hu)
  · rintro ⟨htext, hlogic⟩ u hu
    by_contra hcode
    unfold Expr.hasCode at hcode
    split at hcode
    · exact htext _ _ hu
    · exact (hlogic _ _ _).1 hu
    · exact (hlogic _ _ _).2 hu
    · exact hcode rfl

/-- The value of a statement sees the names defined before it and, if it is a function that is being
defined, its own name. -/
theorem mem_visibleNames_iff {names : List String} {stmt : Stmt} {x : String} :
    x ∈ stmt.visibleNames names ↔
      x ∈ names ∨ ∃ s value, stmt = .define s x value ∧ value.isLambda = true := by
  cases stmt with
  | define s y value =>
    by_cases hl : value.isLambda = true
    · rw [Stmt.visibleNames, if_pos hl, List.mem_append, List.mem_singleton]
      refine or_congr_right ⟨?_, ?_⟩
      · rintro rfl
        exact ⟨s, value, rfl, hl⟩
      · rintro ⟨s', value', h, -⟩
        cases h
        rfl
    · simp [Stmt.visibleNames, hl]
  | puts s value => simp [Stmt.visibleNames]
  | expression value => simp [Stmt.visibleNames]

/-- The names read in a program resolve exactly if no parameter is captured and everything else that
is read has been defined. -/
theorem forall_resolves_iff {program : Program} :
    (∀ before stmt after, program = before ++ stmt :: after →
      ∀ occ ∈ stmt.value.occurrences [],
        occ.Resolves (stmt.visibleNames (Program.definedNames before))) ↔
    (∀ stmt ∈ program, ∀ occ ∈ stmt.value.occurrences [], occ.params ≠ [] →
      occ.IsParam ∨ occ.name ∉ occ.params) ∧
    ∀ before stmt after, program = before ++ stmt :: after →
      ∀ occ ∈ stmt.value.occurrences [], ¬occ.IsParam →
        occ.name ∈ Program.definedNames before ∨
          ∃ s value, stmt = .define s occ.name value ∧ value.isLambda = true := by
  constructor
  · intro h
    refine ⟨fun stmt hstmt occ hocc _ => ?_, fun before stmt after hp occ hocc hparam => ?_⟩
    · obtain ⟨before, after, hp⟩ := List.append_of_mem hstmt
      exact (h before stmt after hp occ hocc).imp_right And.left
    · obtain ⟨-, hvisible⟩ := (h before stmt after hp occ hocc).resolve_left hparam
      exact mem_visibleNames_iff.mp hvisible
  · rintro ⟨hcapture, hdefined⟩ before stmt after hp occ hocc
    by_cases hparam : occ.IsParam
    · exact .inl hparam
    · refine .inr ⟨?_, mem_visibleNames_iff.mpr (hdefined before stmt after hp occ hocc hparam)⟩
      by_cases hparams : occ.params = []
      · simp [hparams]
      · have hstmt : stmt ∈ program := hp ▸ List.mem_append_right before List.mem_cons_self
        exact (hcapture stmt hstmt occ hocc hparams).resolve_left hparam

/-- The programs for which there is code are those that satisfy the conditions from statement to
statement. -/
theorem supported_iff_supportedAt {program : Program} :
    Supported program ↔ SupportedAt [] 0 0 program := by
  rw [supportedAt_iff, forall_hasCode_iff]
  simp only [List.nil_append, forall_resolves_iff, List.length_nil, Nat.zero_add]
  constructor
  · intro h
    exact ⟨⟨h.noText, h.noLogic⟩, ⟨h.noCapture, h.defined⟩, h.constants, h.definitions, h.jumps⟩
  · rintro ⟨⟨htext, hlogic⟩, ⟨hcapture, hdefined⟩, hconstants, hdefinitions, hjumps⟩
    exact ⟨htext, hlogic, hcapture, hdefined, hconstants, hdefinitions, hjumps⟩

end Program

/-- What it means that a program is compiled: it is emitted without an error from the start, and
its code and constants are those of the bytecode. -/
theorem compile_eq_ok_iff {program : Program} {b : Bytecode} :
    compile program = .ok b ↔
      ∃ c scope, Program.emit program (Scope.ofNames []) 0 0
        = (⟨c, b.constants.toList, none⟩, scope) ∧ b.main = .ofInstrs c := by
  unfold compile Session.compile
  have hstart : Program.emit program Session.start.scope (codeSize Session.start.code)
      Session.start.constants.length = Program.emit program (Scope.ofNames []) 0 0 := rfl
  rw [hstart]
  rcases Program.emit program (Scope.ofNames []) 0 0 with ⟨⟨c, k, _ | err⟩, scope⟩
  · constructor
    · intro h
      cases h
      exact ⟨c, scope, rfl, rfl⟩
    · rintro ⟨c', scope', h, hmain⟩
      cases h
      cases b
      cases hmain
      rfl
  · simp

/-- There is bytecode for a program exactly if all of its statements are compiled without an
error. -/
theorem exists_compile_iff_succeeds {program : Program} :
    (∃ b, compile program = .ok b) ↔ Program.Succeeds [] 0 0 program := by
  simp only [compile_eq_ok_iff]
  constructor
  · rintro ⟨b, c, scope, h, -⟩
    exact ⟨c, _, scope, h⟩
  · rintro ⟨c, k, scope, h⟩
    exact ⟨⟨.ofInstrs c, k.toArray⟩, c, scope, h, rfl⟩

/-- **A program is accepted exactly if it is supported**: it has no texts and no `and` or `or`, every
name that it reads is the parameter of the innermost function or a global defined by then, and its
constants, its definitions and its jumps fit. -/
theorem compile_isOk_iff (program : Program) :
    (∃ b, compile program = .ok b) ↔ Program.Supported program := by
  rw [exists_compile_iff_succeeds, Program.supported_iff_supportedAt]
  exact Program.succeeds_iff (Nat.zero_le _) (Nat.zero_le _)

end Duet
