import Duet.Bytecode.Compile

/-!
# What successful compilation emits

`Expr.emit` and `Program.emit` are functions of an offset and a pool size that can fail anywhere.
This file turns their successful runs into derivations. `Emits K R ps e o p c p'` says: inside
functions with the parameters `ps`, the innermost first, the expression `e` becomes the code `c`
when it stands at offset `o` and `p` constants come before it, and `p'` constants are there
afterwards. Here `K` is the complete pool, in which the constants of `e` are found at their
places, and `R ps x i` says that `x`, read inside `ps`, may stand for the global slot `i`.
`ProgramEmits` is the same for programs.

* `Scope.within`: while a program is compiled every scope is a table of globals with a list of
  parameters around it. `resolve?_within_eq_global_iff` and `resolve?_within_eq_local_iff` say
  what names stand for in such a scope.
* `emits_of_yields`, `programEmits_of_yields`, `programEmits_of_compile`: whatever is compiled
  without an error has a derivation.

All statements on compiled programs are proved by induction on these derivations; the emission
functions are not opened again.
-/

namespace Duet

/-! ## Scopes with parameters -/

namespace Scope

/-- The scope inside functions with the given parameters, the innermost first. -/
def within (globals : SlotTable) : List String → Scope
  | [] => .global globals
  | p :: ps => (within globals ps).enclose.define p

/-- The parameter of the innermost function is local. -/
theorem resolve?_within_self (T : SlotTable) (x : String) (ps : List String) :
    (within T (x :: ps)).resolve? x = some ⟨.local_, 0⟩ :=
  resolve?_define_self _ x

/-- A name other than the parameter of the innermost function is resolved as it is outside, seen
from inside. -/
theorem resolve?_within_of_ne (T : SlotTable) {x p : String} (ps : List String) (h : x ≠ p) :
    (within T (p :: ps)).resolve? x = ((within T ps).resolve? x).map fromInside := by
  rw [within, resolve?_define_of_ne _ h]
  rfl

/-- A name stands for a global if no parameter has its name. -/
theorem resolve?_within_eq_global_iff {T : SlotTable} {x : String} {ps : List String} {i : Nat} :
    (within T ps).resolve? x = some ⟨.global, i⟩ ↔ x ∉ ps ∧ T.slot? x = some i := by
  induction ps with
  | nil => simp [within, resolve?]
  | cons p ps ih =>
    by_cases hx : x = p
    · subst hx
      simp [resolve?_within_self]
    · have hmap (b : Option Binding) :
          b.map fromInside = some ⟨.global, i⟩ ↔ b = some ⟨.global, i⟩ := by
        rcases b with _ | ⟨_ | _ | _, j⟩ <;> simp [fromInside]
      rw [resolve?_within_of_ne T ps hx, hmap, ih]
      simp [hx]

/-- Only the innermost parameter is reached as a local. -/
theorem resolve?_within_eq_local_iff {T : SlotTable} {x : String} {ps : List String} {i : Nat} :
    (within T ps).resolve? x = some ⟨.local_, i⟩ ↔ ps.head? = some x ∧ i = 0 := by
  cases ps with
  | nil => simp [within, resolve?]
  | cons p ps =>
    by_cases hx : x = p
    · subst hx
      simp [resolve?_within_self, eq_comm]
    · have hmap (b : Option Binding) : b.map fromInside ≠ some ⟨.local_, i⟩ := by
        rcases b with _ | ⟨_ | _ | _, j⟩ <;> simp [fromInside]
      rw [resolve?_within_of_ne T ps hx]
      simp [hmap, Ne.symm hx]

end Scope

/-! ## Reads of globals inside functions -/

/-- The names that are read as globals inside the functions of an expression, each with the slot
that it stands for. -/
def Expr.functionReads (scope : Scope) : Expr → List (String × Nat)
  | .integer .. | .text .. | .boolean .. | .nil _ => []
  | .name _ x =>
    match scope, scope.resolve? x with
    | .enclosed .., some ⟨.global, i⟩ => [(x, i)]
    | _, _ => []
  | .unary _ _ e => e.functionReads scope
  | .binary _ _ l r => l.functionReads scope ++ r.functionReads scope
  | .ifThen _ c t => c.functionReads scope ++ t.functionReads scope
  | .ifElse _ c t e => c.functionReads scope ++ t.functionReads scope ++ e.functionReads scope
  | .lambda _ param body => body.functionReads (scope.enclose.define param)
  | .apply _ f a => f.functionReads scope ++ a.functionReads scope

/-- The scope in which the value of a statement is compiled: a function that is being defined
sees its own name. -/
def Stmt.visible (scope : Scope) : Stmt → Scope
  | .define _ x value => if value.isLambda then scope.define x else scope
  | .puts .. | .expression _ => scope

/-- The scope after a statement. -/
def Stmt.scopeAfter (scope : Scope) : Stmt → Scope
  | .define _ x _ => scope.define x
  | .puts .. | .expression _ => scope

/-- The names that are read as globals inside the functions of a program, each with the slot that
it stands for where it is read. -/
def Program.functionReads : Program → Scope → List (String × Nat)
  | [], _ => []
  | stmt :: stmts, scope =>
    stmt.value.functionReads (stmt.visible scope)
      ++ Program.functionReads stmts (stmt.scopeAfter scope)

/-- The scope after a program, in which every name stands for its last definition. -/
def Program.scopeAfter (program : Program) (scope : Scope) : Scope :=
  program.foldl Stmt.scopeAfter scope

/-! ## Emissions without an error -/

namespace Emission

/-- The emission succeeds with the given code and constants. -/
def Yields (E : Emission) (offset pool : Nat) (code : List Instr) (constants : List Constant) :
    Prop :=
  E offset pool = ⟨code, constants, none⟩

/-- An instruction gives code of this one instruction. -/
theorem yields_instr {i : Instr} {o p : Nat} {c : List Instr} {k : List Constant}
    (h : (instr i).Yields o p c k) : c = [i] ∧ k = [] := by
  simpa [Yields, instr, eq_comm] using h

/-- An emission that fails gives nothing. -/
theorem not_yields_fail {e : CompileError} {o p : Nat} {c : List Instr} {k : List Constant} :
    ¬(fail e).Yields o p c k := by
  simp [Yields, fail]

/-- A constant gives its loading, as long as there is a free place in the pool. -/
theorem yields_constant {v : Constant} {s : Span} {o p : Nat} {c : List Instr}
    {k : List Constant} (h : (constant v s).Yields o p c k) :
    p < maxSlots ∧ c = [.constant p.toUInt8] ∧ k = [v] := by
  unfold Yields constant at h
  split at h
  · simp_all
  · simp at h

/-- Code of two emissions in a row is code of the first with code of the second behind it. -/
theorem yields_andThen {E F : Emission} {o p : Nat} {c : List Instr} {k : List Constant}
    (h : (E.andThen F).Yields o p c k) :
    ∃ c₁ k₁ c₂ k₂, E.Yields o p c₁ k₁ ∧ F.Yields (o + codeSize c₁) (p + k₁.length) c₂ k₂ ∧
      c = c₁ ++ c₂ ∧ k = k₁ ++ k₂ := by
  unfold Yields andThen at h
  rcases hE : E o p with ⟨c₁, k₁, _ | err⟩
  · simp only [hE] at h
    rcases hF : F (o + codeSize c₁) (p + k₁.length) with ⟨c₂, k₂, err⟩
    simp only [hF, Fragment.mk.injEq] at h
    obtain ⟨rfl, rfl, rfl⟩ := h
    exact ⟨c₁, k₁, c₂, k₂, hE, hF, rfl, rfl⟩
  · simp [hE] at h

/-- Both arms of a conditional stand between its jumps, and both jumps go where they should. -/
theorem yields_branches {s : Span} {A B : Emission} {o p : Nat} {c : List Instr}
    {k : List Constant} (h : (branches s A B).Yields o p c k) :
    ∃ c₁ k₁ c₂ k₂, A.Yields (o + 3) p c₁ k₁ ∧
      B.Yields (o + 3 + codeSize c₁ + 3) (p + k₁.length) c₂ k₂ ∧
      o + 3 + codeSize c₁ + 3 + codeSize c₂ ≤ maxTarget ∧
      c = .jumpIfNotTrue (o + 3 + codeSize c₁ + 3).toUInt16 ::
        (c₁ ++ .jump (o + 3 + codeSize c₁ + 3 + codeSize c₂).toUInt16 :: c₂) ∧
      k = k₁ ++ k₂ := by
  unfold Yields branches at h
  rcases hA : A (o + 3) p with ⟨c₁, k₁, _ | err⟩
  · simp only [hA] at h
    split at h
    · simp at h
    · rcases hB : B (o + 3 + codeSize c₁ + 3) (p + k₁.length) with ⟨c₂, k₂, _ | err⟩
      · simp only [hB] at h
        split at h
        · simp at h
        · rename_i _ hstop
          simp only [Fragment.mk.injEq] at h
          obtain ⟨rfl, rfl, -⟩ := h
          exact ⟨c₁, k₁, c₂, k₂, hA, hB, Nat.le_of_not_lt hstop, rfl, rfl⟩
      · simp [hB] at h
  · simp [hA] at h

/-- A function gives its loading; its body, with a `return` behind it, is the last of the
constants. -/
theorem yields_function {s : Span} {B : Emission} {o p : Nat} {c : List Instr}
    {k : List Constant} (h : (function s B).Yields o p c k) :
    ∃ c₁ k₁, B.Yields 0 p c₁ k₁ ∧ p + k₁.length < maxSlots ∧
      c = [.constant (p + k₁.length).toUInt8] ∧
      k = k₁ ++ [.function (.ofInstrs (c₁ ++ [.return_]))] := by
  unfold Yields function at h
  rcases hB : B 0 p with ⟨c₁, k₁, _ | err⟩
  · simp only [hB] at h
    rcases hC : constant (.function (.ofInstrs (c₁ ++ [.return_]))) s o (p + k₁.length) with
      ⟨c₂, k₂, err⟩
    simp only [hC, Fragment.mk.injEq] at h
    obtain ⟨rfl, rfl, rfl⟩ := h
    obtain ⟨hlt, rfl, rfl⟩ := yields_constant hC
    exact ⟨c₁, k₁, hB, hlt, rfl, rfl⟩
  · simp [hB] at h

end Emission

/-! ## Derivations -/

/-- The code of an expression, as a derivation; see the head of this file. -/
inductive Emits (K : Array Constant) (R : List String → String → Nat → Prop) :
    List String → Expr → (offset pool : Nat) → List Instr → (poolAfter : Nat) → Prop
  | integer {ps s n o p} : p < maxSlots → K[p]? = some (.integer (n : Nat)) →
      Emits K R ps (.integer s n) o p [.constant p.toUInt8] (p + 1)
  | boolean {ps s b o p} : Emits K R ps (.boolean s b) o p [.boolean b] p
  | nil {ps s o p} : Emits K R ps (.nil s) o p [.nil] p
  | local_ {ps s x o p} : Emits K R (x :: ps) (.name s x) o p [.getLocal 0] p
  | global {ps s x i o p} : x ∉ ps → R ps x i →
      Emits K R ps (.name s x) o p [.getGlobal i.toUInt8] p
  | unary {ps s op e o p c p'} : Emits K R ps e o p c p' →
      Emits K R ps (.unary s op e) o p (c ++ [op.instr]) p'
  | binary {ps s op i l r o p c₁ p₁ c₂ p₂} : op.instr? = some i →
      Emits K R ps l o p c₁ p₁ → Emits K R ps r (o + codeSize c₁) p₁ c₂ p₂ →
      Emits K R ps (.binary s op l r) o p (c₁ ++ (c₂ ++ [i])) p₂
  | ifThen {ps s c t o p c₀ p₀ c₁ p₁ start stop} :
      Emits K R ps c o p c₀ p₀ → Emits K R ps t (o + codeSize c₀ + 3) p₀ c₁ p₁ →
      start = o + codeSize c₀ + 3 + codeSize c₁ + 3 → stop = start + 1 → stop ≤ maxTarget →
      Emits K R ps (.ifThen s c t) o p
        (c₀ ++ .jumpIfNotTrue start.toUInt16 :: (c₁ ++ .jump stop.toUInt16 :: [.nil])) p₁
  | ifElse {ps s c t e o p c₀ p₀ c₁ p₁ c₂ p₂ start stop} :
      Emits K R ps c o p c₀ p₀ → Emits K R ps t (o + codeSize c₀ + 3) p₀ c₁ p₁ →
      Emits K R ps e start p₁ c₂ p₂ →
      start = o + codeSize c₀ + 3 + codeSize c₁ + 3 → stop = start + codeSize c₂ →
      stop ≤ maxTarget →
      Emits K R ps (.ifElse s c t e) o p
        (c₀ ++ .jumpIfNotTrue start.toUInt16 :: (c₁ ++ .jump stop.toUInt16 :: c₂)) p₂
  | lambda {ps s param body o p c p'} : Emits K R (param :: ps) body 0 p c p' →
      p' < maxSlots → K[p']? = some (.function (.ofInstrs (c ++ [.return_]))) →
      Emits K R ps (.lambda s param body) o p [.constant p'.toUInt8] (p' + 1)
  | apply {ps s f a o p c₁ p₁ c₂ p₂} : Emits K R ps a o p c₁ p₁ →
      Emits K R ps f (o + codeSize c₁) p₁ c₂ p₂ →
      Emits K R ps (.apply s f a) o p (c₁ ++ (c₂ ++ [.call])) p₂

/-- A derivation may be read with more reads allowed. Inside `ps` only reads inside `ps` matter. -/
theorem Emits.mono {K : Array Constant} {R R' : List String → String → Nat → Prop}
    {ps : List String} {e : Expr} {o p p' : Nat} {c : List Instr} (h : Emits K R ps e o p c p')
    (hR : ∀ qs x i, ps <:+ qs → R qs x i → R' qs x i) : Emits K R' ps e o p c p' := by
  induction h with
  | integer hp hk => exact .integer hp hk
  | boolean => exact .boolean
  | nil => exact .nil
  | local_ => exact .local_
  | global hx hr => exact .global hx (hR _ _ _ (List.suffix_refl _) hr)
  | unary _ ih => exact .unary (ih hR)
  | binary hi _ _ ihl ihr => exact .binary hi (ihl hR) (ihr hR)
  | ifThen _ _ hstart hstop hle ihc iht => exact .ifThen (ihc hR) (iht hR) hstart hstop hle
  | ifElse _ _ _ hstart hstop hle ihc iht ihe =>
    exact .ifElse (ihc hR) (iht hR) (ihe hR) hstart hstop hle
  | lambda _ hp hk ih =>
    exact .lambda (ih fun qs x i hqs => hR qs x i ((List.suffix_cons _ _).trans hqs)) hp hk
  | apply _ _ iha ihf => exact .apply (iha hR) (ihf hR)

/-- What the globals `T` let a name stand for, if reads inside functions have to satisfy `Q` as
well. -/
def SlotTable.Reads (T : SlotTable) (Q : String → Nat → Prop) (ps : List String) (x : String)
    (i : Nat) : Prop :=
  T.slot? x = some i ∧ (ps ≠ [] → Q x i)

/-- The pool `K` holds the constants `k` from place `p` on. -/
def PoolHas (K : Array Constant) (p : Nat) (k : List Constant) : Prop :=
  ∀ (j : Nat) (v : Constant), k[j]? = some v → K[p + j]? = some v

/-- A pool that holds constants holds the first of them. -/
theorem PoolHas.left {K : Array Constant} {p : Nat} {k₁ k₂ : List Constant}
    (h : PoolHas K p (k₁ ++ k₂)) : PoolHas K p k₁ := by
  intro j v hj
  apply h
  obtain ⟨hlt, -⟩ := List.getElem?_eq_some_iff.mp hj
  rw [List.getElem?_append_left hlt, hj]

/-- A pool that holds constants holds the last of them further on. -/
theorem PoolHas.right {K : Array Constant} {p : Nat} {k₁ k₂ : List Constant}
    (h : PoolHas K p (k₁ ++ k₂)) : PoolHas K (p + k₁.length) k₂ := by
  intro j v hj
  rw [Nat.add_assoc]
  apply h
  rw [List.getElem?_append_right (Nat.le_add_right _ _), Nat.add_sub_cancel_left, hj]

/-- The first of the constants stands where they begin. -/
theorem PoolHas.head {K : Array Constant} {p : Nat} {v : Constant} {k : List Constant}
    (h : PoolHas K p (v :: k)) : K[p]? = some v :=
  h 0 v rfl

section expressions

open Emission

variable {K : Array Constant} {T : SlotTable} {Q : String → Nat → Prop}

/-- Reading a name has a derivation unless the name is out of reach. -/
theorem emits_name_of_yields {ps : List String} {s : Span} {x : String} {o p : Nat}
    {c : List Instr} {k : List Constant}
    (h : ((Scope.within T ps).emitName x s).Yields o p c k)
    (hQ : ∀ r ∈ (Expr.name s x).functionReads (Scope.within T ps), Q r.1 r.2) :
    Emits K (T.Reads Q) ps (.name s x) o p c (p + k.length) := by
  unfold Scope.emitName at h
  split at h
  · exact absurd h not_yields_fail
  · rename_i i hres
    obtain ⟨rfl, rfl⟩ := yields_instr h
    obtain ⟨hx, hslot⟩ := Scope.resolve?_within_eq_global_iff.mp hres
    refine .global hx ⟨hslot, fun hps => ?_⟩
    cases ps with
    | nil => contradiction
    | cons q qs =>
      refine hQ (x, i) ?_
      simp only [Scope.within, Scope.enclose, Scope.define] at hres ⊢
      simp [Expr.functionReads, hres]
  · rename_i i hres
    obtain ⟨rfl, rfl⟩ := yields_instr h
    obtain ⟨hhead, rfl⟩ := Scope.resolve?_within_eq_local_iff.mp hres
    cases ps with
    | nil => simp at hhead
    | cons q qs =>
      obtain rfl : q = x := by simpa using hhead
      exact .local_
  · exact absurd h not_yields_fail

/-- An expression that is compiled without an error has a derivation. -/
theorem emits_of_yields (ps : List String) {e : Expr} {o p : Nat} {c : List Instr}
    {k : List Constant} (h : (e.emit (Scope.within T ps)).Yields o p c k) (hK : PoolHas K p k)
    (hQ : ∀ r ∈ e.functionReads (Scope.within T ps), Q r.1 r.2) :
    Emits K (T.Reads Q) ps e o p c (p + k.length) := by
  induction e generalizing ps o p c k with
  | integer s n =>
    obtain ⟨hlt, rfl, rfl⟩ := yields_constant h
    exact .integer hlt hK.head
  | text s v => exact absurd h not_yields_fail
  | boolean s b =>
    obtain ⟨rfl, rfl⟩ := yields_instr h
    exact .boolean
  | nil s =>
    obtain ⟨rfl, rfl⟩ := yields_instr h
    exact .nil
  | name s x => exact emits_name_of_yields h hQ
  | unary s op e ih =>
    obtain ⟨c₁, k₁, c₂, k₂, he, hop, rfl, rfl⟩ := yields_andThen h
    obtain ⟨rfl, rfl⟩ := yields_instr hop
    rw [List.append_nil] at hK ⊢
    exact .unary (ih ps he hK hQ)
  | binary s op l r ihl ihr =>
    simp only [Expr.functionReads, List.forall_mem_append] at hQ
    rw [Expr.emit] at h
    cases hop : op.instr? with
    | none =>
      rw [hop] at h
      exact absurd h not_yields_fail
    | some i =>
      rw [hop] at h
      obtain ⟨c₁, k₁, c₂, k₂, hl, hrest, rfl, rfl⟩ := yields_andThen h
      obtain ⟨c₃, k₃, c₄, k₄, hr, hi, rfl, rfl⟩ := yields_andThen hrest
      obtain ⟨rfl, rfl⟩ := yields_instr hi
      rw [List.append_nil] at hK ⊢
      rw [List.length_append, ← Nat.add_assoc]
      exact .binary hop (ihl ps hl hK.left hQ.1) (ihr ps hr hK.right hQ.2)
  | ifThen s cond t ihc iht =>
    simp only [Expr.functionReads, List.forall_mem_append] at hQ
    obtain ⟨c₀, k₀, c', k', hc, hb, rfl, rfl⟩ := yields_andThen h
    obtain ⟨c₁, k₁, c₂, k₂, ht, hn, hle, rfl, rfl⟩ := yields_branches hb
    obtain ⟨rfl, rfl⟩ := yields_instr hn
    rw [List.append_nil] at hK ⊢
    rw [List.length_append, ← Nat.add_assoc]
    exact .ifThen (ihc ps hc hK.left hQ.1) (iht ps ht hK.right hQ.2) rfl rfl hle
  | ifElse s cond t e ihc iht ihe =>
    simp only [Expr.functionReads, List.forall_mem_append] at hQ
    obtain ⟨c₀, k₀, c', k', hc, hb, rfl, rfl⟩ := yields_andThen h
    obtain ⟨c₁, k₁, c₂, k₂, ht, he, hle, rfl, rfl⟩ := yields_branches hb
    rw [List.length_append, List.length_append, ← Nat.add_assoc, ← Nat.add_assoc]
    exact .ifElse (ihc ps hc hK.left hQ.1.1) (iht ps ht hK.right.left hQ.1.2)
      (ihe ps he hK.right.right hQ.2) rfl rfl hle
  | lambda s param body ih =>
    obtain ⟨c₁, k₁, hb, hlt, rfl, rfl⟩ := yields_function h
    rw [List.length_append, List.length_singleton, ← Nat.add_assoc]
    exact .lambda (ih (param :: ps) hb hK.left hQ) hlt hK.right.head
  | apply s f a ihf iha =>
    simp only [Expr.functionReads, List.forall_mem_append] at hQ
    obtain ⟨c₁, k₁, c₂, k₂, ha, hrest, rfl, rfl⟩ := yields_andThen h
    obtain ⟨c₃, k₃, c₄, k₄, hf, hi, rfl, rfl⟩ := yields_andThen hrest
    obtain ⟨rfl, rfl⟩ := yields_instr hi
    rw [List.append_nil] at hK ⊢
    rw [List.length_append, ← Nat.add_assoc]
    exact .apply (iha ps ha hK.left hQ.2) (ihf ps hf hK.right hQ.1)

end expressions

/-! ## Programs -/

/-- The code of a program, as a derivation. The table holds the globals defined before it. A
definition of a function is compiled with its own name defined, every other one without. -/
inductive ProgramEmits (K : Array Constant) (Q : String → Nat → Prop) :
    SlotTable → Program → (offset pool : Nat) → List Instr → Prop
  | nil {T o p} : ProgramEmits K Q T [] o p []
  | puts {T s e stmts o p c p' c'} : Emits K (T.Reads Q) [] e o p c p' →
      ProgramEmits K Q T stmts (o + codeSize c + 1) p' c' →
      ProgramEmits K Q T (.puts s e :: stmts) o p (c ++ .pop :: c')
  | expression {T e stmts o p c p' c'} : Emits K (T.Reads Q) [] e o p c p' →
      ProgramEmits K Q T stmts (o + codeSize c + 1) p' c' →
      ProgramEmits K Q T (.expression e :: stmts) o p (c ++ .pop :: c')
  | define {T s x e stmts o p c p' c'} : e.isLambda = false →
      Emits K (T.Reads Q) [] e o p c p' → T.count < maxSlots →
      ProgramEmits K Q (T.define x) stmts (o + codeSize c + 2) p' c' →
      ProgramEmits K Q T (.define s x e :: stmts) o p (c ++ .setGlobal T.count.toUInt8 :: c')
  | defineFunction {T s x e stmts o p c p' c'} : e.isLambda = true →
      Emits K ((T.define x).Reads Q) [] e o p c p' → T.count < maxSlots →
      ProgramEmits K Q (T.define x) stmts (o + codeSize c + 2) p' c' →
      ProgramEmits K Q T (.define s x e :: stmts) o p (c ++ .setGlobal T.count.toUInt8 :: c')

section programs

open Emission

variable {K : Array Constant} {Q : String → Nat → Prop}

/-- A definition without an error is the code of its value and the setting of the next slot. -/
theorem emitDefine_ok {s : Span} {x : String} {value : Expr} {T : SlotTable} {o p : Nat}
    {c : List Instr} {k : List Constant} {scope : Scope}
    (h : emitDefine s x value (.global T) o p = (⟨c, k, none⟩, scope)) :
    ∃ c₁, (value.emit ((Stmt.define s x value).visible (.global T))).Yields o p c₁ k ∧
      T.count < maxSlots ∧ c = c₁ ++ [.setGlobal T.count.toUInt8] ∧
      scope = .global (T.define x) := by
  unfold emitDefine at h
  rcases hf : value.emit ((Stmt.define s x value).visible (.global T)) o p with ⟨c₁, k₁, _ | err⟩
  · simp only [Stmt.visible] at hf
    simp only [hf] at h
    split at h
    · rename_i hslot
      simp only [Prod.mk.injEq, Fragment.mk.injEq] at h
      obtain ⟨⟨rfl, rfl, -⟩, rfl⟩ := h
      exact ⟨c₁, hf, hslot, rfl, rfl⟩
    · simp at h
  · simp only [Stmt.visible] at hf
    simp [hf] at h

/-- A statement in front of a program: its code comes first. -/
theorem programEmit_cons_ok {stmt : Stmt} {stmts : Program} {σ σ' : Scope} {o p : Nat}
    {c : List Instr} {k : List Constant}
    (h : Program.emit (stmt :: stmts) σ o p = (⟨c, k, none⟩, σ')) :
    ∃ c₁ k₁ σ₁ c₂ k₂, stmt.emit σ o p = (⟨c₁, k₁, none⟩, σ₁) ∧
      Program.emit stmts σ₁ (o + codeSize c₁) (p + k₁.length) = (⟨c₂, k₂, none⟩, σ') ∧
      c = c₁ ++ c₂ ∧ k = k₁ ++ k₂ := by
  rw [Program.emit] at h
  rcases hf : stmt.emit σ o p with ⟨⟨c₁, k₁, _ | err⟩, σ₁⟩
  · simp only [hf] at h
    rcases hg : Program.emit stmts σ₁ (o + codeSize c₁) (p + k₁.length) with ⟨⟨c₂, k₂, err⟩, σ₂⟩
    simp only [hg, Prod.mk.injEq, Fragment.mk.injEq] at h
    obtain ⟨⟨rfl, rfl, rfl⟩, rfl⟩ := h
    exact ⟨c₁, k₁, σ₁, c₂, k₂, rfl, hg, rfl, rfl⟩
  · simp [hf] at h

/-- A shown value: its code, and then its removal from the stack. -/
theorem shown_ok {e : Expr} {σ σ' : Scope} {o p : Nat} {c : List Instr} {k : List Constant}
    (h : ((e.emit σ).andThen (.instr .pop) o p, σ) = (⟨c, k, none⟩, σ')) :
    ∃ c₁, (e.emit σ).Yields o p c₁ k ∧ c = c₁ ++ [.pop] ∧ σ' = σ := by
  obtain ⟨hy, rfl⟩ := Prod.mk.injEq .. ▸ h
  obtain ⟨c₁, k₁, c₂, k₂, he, hp, rfl, rfl⟩ := yields_andThen hy
  obtain ⟨rfl, rfl⟩ := yields_instr hp
  rw [List.append_nil]
  exact ⟨c₁, he, rfl, rfl⟩

/-- A program that is compiled without an error has a derivation. -/
theorem programEmits_of_yields {stmts : Program} {T : SlotTable} {o p : Nat} {c : List Instr}
    {k : List Constant} {scope : Scope}
    (h : Program.emit stmts (.global T) o p = (⟨c, k, none⟩, scope)) (hK : PoolHas K p k)
    (hQ : ∀ r ∈ Program.functionReads stmts (.global T), Q r.1 r.2) :
    ProgramEmits K Q T stmts o p c := by
  induction stmts generalizing T o p c k with
  | nil =>
    simp only [Program.emit, Prod.mk.injEq, Fragment.mk.injEq] at h
    obtain ⟨⟨rfl, -, -⟩, -⟩ := h
    exact .nil
  | cons stmt stmts ih =>
    obtain ⟨c₁, k₁, σ₁, c₂, k₂, hstmt, hrest, rfl, rfl⟩ := programEmit_cons_ok h
    simp only [Program.functionReads, List.forall_mem_append] at hQ
    cases stmt with
    | puts s e =>
      obtain ⟨c₀, he, rfl, rfl⟩ := shown_ok hstmt
      rw [codeSize_append] at hrest
      rw [List.append_assoc]
      exact .puts (emits_of_yields [] he hK.left hQ.1) (ih hrest hK.right hQ.2)
    | expression e =>
      obtain ⟨c₀, he, rfl, rfl⟩ := shown_ok hstmt
      rw [codeSize_append] at hrest
      rw [List.append_assoc]
      exact .expression (emits_of_yields [] he hK.left hQ.1) (ih hrest hK.right hQ.2)
    | define s x e =>
      obtain ⟨c₀, he, hslot, rfl, rfl⟩ := emitDefine_ok hstmt
      rw [codeSize_append] at hrest
      rw [List.append_assoc]
      have hQ₁ := hQ.1
      simp only [Stmt.visible, Stmt.value] at he hQ₁
      cases hl : e.isLambda with
      | false =>
        simp only [hl] at he hQ₁
        exact .define hl (emits_of_yields [] he hK.left hQ₁) hslot (ih hrest hK.right hQ.2)
      | true =>
        simp only [hl] at he hQ₁
        exact .defineFunction hl (emits_of_yields [] he hK.left hQ₁) hslot
          (ih hrest hK.right hQ.2)

/-- An accepted program has a derivation, and its bytecode is made from the code in it. -/
theorem programEmits_of_compile {program : Program} {b : Bytecode}
    (h : compile program = .ok b)
    (hQ : ∀ r ∈ Program.functionReads program .empty, Q r.1 r.2) :
    ∃ c, ProgramEmits b.constants Q .empty program 0 0 c ∧ b.main = .ofInstrs c := by
  unfold compile Session.compile at h
  rcases hp : Program.emit program Session.start.scope (codeSize Session.start.code)
    Session.start.constants.length with ⟨⟨c, k, _ | err⟩, scope⟩
  · simp only [hp, Except.ok.injEq] at h
    subst h
    refine ⟨c, programEmits_of_yields hp ?_ hQ, rfl⟩
    intro j v hj
    simpa [Session.bytecode, Session.start] using hj
  · simp [hp] at h

end programs

end Duet
