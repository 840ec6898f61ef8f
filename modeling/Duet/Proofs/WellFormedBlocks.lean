import Duet.Proofs.AcceptedPrograms
import Duet.Proofs.Decoding
import Duet.Proofs.StackHeights
import Mathlib.Data.List.Forall2

/-!
# Compiled blocks are well-formed

What can be said about the blocks of a compiled program without running them. Every block can be
read back as a list of instructions; in this list every operand means something in its block, and
the instructions that end statements and functions are only where they belong.

* `WellFormedBlock`: the conditions on operands. They hold in a block in which every boundary is
  safe (`wellFormedBlock_of_safeAt`).
* `MainBlock` and `FunctionBlock`: what is true besides of the main block and of functions.
* `Constant.Represents`: a constant of the pool belongs to an integer or to a function of the
  program. The constants represent the entries of the program one by one, in order.
* `Compiled`: what is known of a program once it has been accepted, from which the later files start.
* `compile_wellFormed`: all of the above, for every accepted program.
-/

namespace Duet

/-! ## Instructions and their places -/

namespace Instr

/-- The slot of a global that an instruction reads. -/
def globalRead? : Instr → Option Nat
  | .getGlobal slot => some slot.toNat
  | _ => none

/-- The slot of a global that an instruction sets. -/
def globalSet? : Instr → Option Nat
  | .setGlobal slot => some slot.toNat
  | _ => none

/-- The target of a jump. -/
def target? : Instr → Option Nat
  | .jumpIfNotTrue target | .jump target => some target.toNat
  | _ => none

end Instr

/-- The instructions of a block from an offset on, each with the offset at which it starts. -/
def placedFrom (offset : Nat) : List Instr → List (Nat × Instr)
  | [] => []
  | i :: is => (offset, i) :: placedFrom (offset + i.size) is

/-- An instruction is placed at the size of the code before it. -/
theorem mem_placedFrom_iff {o o' : Nat} {i : Instr} {is : List Instr} :
    (o', i) ∈ placedFrom o is ↔ ∃ pre post, is = pre ++ i :: post ∧ o' = o + codeSize pre := by
  induction is generalizing o with
  | nil => simp [placedFrom]
  | cons j is ih =>
    rw [placedFrom, List.mem_cons, Prod.mk.injEq, ih]
    constructor
    · rintro (⟨rfl, rfl⟩ | ⟨pre, post, rfl, rfl⟩)
      · exact ⟨[], is, rfl, rfl⟩
      · exact ⟨j :: pre, post, rfl, by rw [codeSize_cons, Nat.add_assoc]⟩
    · rintro ⟨pre, post, h, rfl⟩
      cases pre with
      | nil =>
        obtain ⟨rfl, -⟩ := List.cons.inj h
        exact .inl ⟨rfl, rfl⟩
      | cons j' pre =>
        obtain ⟨rfl, htail⟩ := List.cons.inj h
        exact .inr ⟨pre, post, htail, by rw [codeSize_cons, Nat.add_assoc]⟩

/-- A boundary of a block is where an instruction starts, or its end. -/
theorem boundary_mem_placedFrom {is pre post : List Instr} (h : is = pre ++ post) :
    codeSize pre ∈ (placedFrom 0 is).map Prod.fst ∨ codeSize pre = codeSize is := by
  cases post with
  | nil =>
    rw [h, List.append_nil]
    exact .inr rfl
  | cons i post =>
    have hmem := mem_placedFrom_iff.mpr ⟨pre, post, h, (Nat.zero_add (codeSize pre)).symm⟩
    exact .inl (List.mem_map.mpr ⟨_, hmem, rfl⟩)

/-! ## Well-formed blocks -/

/-- The operands in a block of a program with `globals` definitions and `pool` constants, in which
names stand for the slots `reads`. -/
structure WellFormedBlock (pool globals : Nat) (reads : List Nat) (is : List Instr) : Prop where
  /-- Every constant that is loaded is in the pool. -/
  constants : ∀ i, .constant i ∈ is → i.toNat < pool
  /-- The slots that are read are those that the names stand for. -/
  reads_eq : is.filterMap Instr.globalRead? = reads
  /-- Every slot that is read or set belongs to a definition. -/
  slots : ∀ i, .getGlobal i ∈ is ∨ .setGlobal i ∈ is → i.toNat < globals
  /-- There is only one local. -/
  locals : ∀ i, .getLocal i ∈ is → i = 0
  /-- Every jump leads to an instruction behind it, or to the end of the block. -/
  jumps : ∀ o i t, (o, i) ∈ placedFrom 0 is → i.target? = some t →
    o < t ∧ (t ∈ (placedFrom 0 is).map Prod.fst ∨ t = codeSize is)

/-- A block is well formed among more globals. -/
theorem WellFormedBlock.mono {pool globals globals' : Nat} {reads : List Nat} {is : List Instr}
    (h : WellFormedBlock pool globals reads is) (hle : globals ≤ globals') :
    WellFormedBlock pool globals' reads is :=
  { h with slots := fun i hi => Nat.lt_of_lt_of_le (h.slots i hi) hle }

/-- The main block: definitions set their slots in order, and nothing belongs to a function. -/
structure MainBlock (pool globals : Nat) (reads : List Nat) (is : List Instr) : Prop
    extends WellFormedBlock pool globals reads is where
  sets_eq : is.filterMap Instr.globalSet? = List.range globals
  no_return : .return_ ∉ is
  no_getLocal : ∀ i, .getLocal i ∉ is

/-- The block of a function: it returns at its end and nowhere else, and nothing in it ends a
statement. -/
structure FunctionBlock (pool globals : Nat) (reads : List Nat) (is : List Instr) : Prop
    extends WellFormedBlock pool globals reads is where
  return_last : ∃ body, is = body ++ [.return_] ∧ .return_ ∉ body
  no_pop : .pop ∉ is
  no_setGlobal : ∀ i, .setGlobal i ∉ is

/-- Fewer globals are set before an instruction that sets one than in all. -/
theorem setCount_lt_of_split {is pre post : List Instr} {s : UInt8}
    (h : is = pre ++ .setGlobal s :: post) : setCount pre < setCount is := by
  rw [h, setCount_append, setCount_cons, Instr.setsGlobal, if_pos rfl]
  omega

section safe

variable {K : Array Constant} {globals locals : Nat} {is : List Instr}

/-- The operands are in order in a block in which every boundary is safe, the one at the end of a
function excepted. -/
theorem wellFormedBlock_of_safeAt (hlocals : locals ≤ 1)
    (hsafe : ∀ pre i post, is = pre ++ i :: post → i ≠ .return_ →
      i.SafeAt K globals locals is pre post) :
    WellFormedBlock K.size (globals + setCount is) (is.filterMap Instr.globalRead?) is where
  constants := by
    intro i hi
    obtain ⟨pre, post, h⟩ := List.append_of_mem hi
    obtain ⟨v, -, hv, -⟩ := hsafe pre _ post h nofun
    exact (Array.getElem?_eq_some_iff.mp hv).1
  reads_eq := rfl
  slots := by
    rintro i (hi | hi)
    · obtain ⟨pre, post, h⟩ := List.append_of_mem hi
      have hlt : i.toNat < globals + setCount pre := hsafe pre _ post h nofun
      have hle : setCount is = setCount pre + setCount (.getGlobal i :: post) := by
        rw [h, setCount_append]
      omega
    · obtain ⟨pre, post, h⟩ := List.append_of_mem hi
      obtain ⟨-, -, hslot⟩ := hsafe pre _ post h nofun
      have hlt := setCount_lt_of_split h
      omega
  locals := by
    intro i hi
    obtain ⟨pre, post, h⟩ := List.append_of_mem hi
    have hlt : i.toNat < locals := hsafe pre _ post h nofun
    exact UInt8.toNat_inj.mp (show i.toNat = 0 by omega)
  jumps := by
    intro o i t hplaced ht
    obtain ⟨pre, post, h, rfl⟩ := mem_placedFrom_iff.mp hplaced
    have htarget : ∃ pre' post', is = pre' ++ post' ∧ codeSize pre' = t ∧
        codeSize pre < codeSize pre' := by
      cases i with
      | jump u | jumpIfNotTrue u =>
        obtain ⟨-, pre', post', hsplit, hsize, hlt, -⟩ := hsafe pre _ post h nofun
        exact ⟨pre', post', hsplit, hsize.trans (Option.some.inj ht), hlt⟩
      | _ => cases ht
    obtain ⟨pre', post', hsplit, rfl, hlt⟩ := htarget
    rw [Nat.zero_add]
    exact ⟨hlt, boundary_mem_placedFrom hsplit⟩

/-- If every `setGlobal` sets the next slot, the slots are set in order. -/
theorem filterMap_globalSet?_eq_range
    (h : ∀ pre s post, is = pre ++ .setGlobal s :: post → s.toNat = setCount pre) :
    is.filterMap Instr.globalSet? = List.range (setCount is) := by
  induction is using List.reverseRecOn with
  | nil => rfl
  | append_singleton is i ih =>
    have hinit := ih fun pre s post hs => h pre s (post ++ [i]) (by rw [hs]; simp)
    rw [List.filterMap_append, hinit, setCount_append]
    cases i with
    | setGlobal s =>
      have hs := h is s [] rfl
      show _ ++ [s.toNat] = List.range (setCount is + 1)
      rw [List.range_succ, hs]
    | _ => exact List.append_nil _

end safe

/-! ## What stands in a block -/

/-- The slots that the names stand for that are read in the block of an expression, in the order in
which they are read. Functions are compiled to blocks of their own. -/
def Expr.blockReads (scope : Scope) : Expr → List Nat
  | .integer .. | .text .. | .boolean .. | .nil _ | .lambda .. => []
  | .name _ x =>
    match scope.resolve? x with
    | some ⟨.global, i⟩ => [i]
    | _ => []
  | .unary _ _ e => e.blockReads scope
  | .binary _ _ l r | .ifThen _ l r => l.blockReads scope ++ r.blockReads scope
  | .ifElse _ c t e => c.blockReads scope ++ t.blockReads scope ++ e.blockReads scope
  | .apply _ f a => a.blockReads scope ++ f.blockReads scope

/-- The integers and functions of an expression, each with the scope it is in, in the order in which
they are compiled: a function comes behind everything in its body. -/
def Expr.poolEntries (scope : Scope) : Expr → List (Scope × Expr)
  | .text .. | .boolean .. | .nil _ | .name .. => []
  | .integer s n => [(scope, .integer s n)]
  | .unary _ _ e => e.poolEntries scope
  | .binary _ _ l r | .ifThen _ l r => l.poolEntries scope ++ r.poolEntries scope
  | .ifElse _ c t e => c.poolEntries scope ++ t.poolEntries scope ++ e.poolEntries scope
  | .lambda s param body =>
    body.poolEntries (scope.enclose.define param) ++ [(scope, .lambda s param body)]
  | .apply _ f a => a.poolEntries scope ++ f.poolEntries scope

/-- The values of the statements of a program, each with the scope it is compiled in. -/
def Program.scopedValues : Program → Scope → List (Scope × Expr)
  | [], _ => []
  | stmt :: stmts, scope =>
    (stmt.visible scope, stmt.value) :: Program.scopedValues stmts (stmt.scopeAfter scope)

/-- The slots that the names stand for that are read in the main block. -/
def Program.blockReads (program : Program) (scope : Scope) : List Nat :=
  (Program.scopedValues program scope).flatMap fun v => v.2.blockReads v.1

/-- The integers and functions of a program, in the order in which they are compiled. -/
def Program.poolEntries (program : Program) (scope : Scope) : List (Scope × Expr) :=
  (Program.scopedValues program scope).flatMap fun v => v.2.poolEntries v.1

/-- The constant in the pool for an integer or a function of a program with `globals` definitions
and `pool` constants. -/
inductive Constant.Represents (pool globals : Nat) : Scope × Expr → Constant → Prop
  | integer {scope s n} : Represents pool globals (scope, .integer s n) (.integer (n : Nat))
  | function {scope s param body code is} : code.decode? = some is →
      FunctionBlock pool globals (body.blockReads (scope.enclose.define param)) is →
      Represents pool globals (scope, .lambda s param body) (.function code)

/-! ## Expressions -/

section expressions

variable {K : Array Constant} {T : SlotTable} {Q : String → Nat → Prop}

/-- The code of an expression reads the slots that its names stand for, and no slot is cut off. -/
theorem Emits.filterMap_globalRead? {ps : List String} {e : Expr} {o p p' : Nat} {c : List Instr}
    (he : Emits K (T.Reads Q) ps e o p c p') (hT : T.Bounded) (hcount : T.count ≤ maxSlots) :
    c.filterMap Instr.globalRead? = e.blockReads (Scope.within T ps) := by
  induction he with
  | integer _ _ | boolean | nil | lambda _ _ _ _ => rfl
  | @local_ ps s x =>
    rw [Expr.blockReads, Scope.resolve?_within_self]
    rfl
  | @global ps s x i o p hx hr =>
    have hslot : i.toUInt8.toNat = i := toNat_toUInt8 (Nat.lt_of_lt_of_le (hT x i hr.1) hcount)
    rw [Expr.blockReads, Scope.resolve?_within_eq_global_iff.mpr ⟨hx, hr.1⟩]
    exact congrArg (fun n => [n]) hslot
  | @unary ps s op e o p c p' _ ih =>
    have hop : [op.instr].filterMap Instr.globalRead? = [] := by cases op <;> rfl
    rw [List.filterMap_append, hop, List.append_nil, ih, Expr.blockReads]
  | @binary ps s op i l r o p c₁ p₁ c₂ p₂ hop _ _ ihl ihr =>
    have hi : [i].filterMap Instr.globalRead? = [] := by
      cases op <;> simp only [BinaryOp.instr?, Option.some.injEq, reduceCtorEq] at hop <;>
        subst hop <;> rfl
    rw [List.filterMap_append, List.filterMap_append, hi, List.append_nil, ihl, ihr,
      Expr.blockReads]
  | ifThen _ _ _ _ _ ihc iht =>
    rw [List.filterMap_append, List.filterMap_cons_none rfl, List.filterMap_append, ihc, iht,
      Expr.blockReads]
    exact congrArg _ (List.append_nil _)
  | ifElse _ _ _ _ _ _ ihc iht ihe =>
    rw [List.filterMap_append, List.filterMap_cons_none rfl, List.filterMap_append,
      List.filterMap_cons_none rfl, ihc, iht, ihe, Expr.blockReads, List.append_assoc]
  | apply _ _ iha ihf =>
    rw [List.filterMap_append, List.filterMap_append, iha, ihf, Expr.blockReads]
    exact congrArg _ (List.append_nil _)

/-- The block of a function whose body is compiled behind no more than `globals` definitions. -/
theorem Emits.functionBlock {ps : List String} {param : String} {body : Expr} {p p' globals : Nat}
    {c : List Instr} (he : Emits K (T.Reads Q) (param :: ps) body 0 p c p') (hT : T.Bounded)
    (hcount : T.count ≤ maxSlots) (hglobals : T.count ≤ globals) :
    FunctionBlock K.size globals (body.blockReads (Scope.within T (param :: ps)))
      (c ++ [.return_]) := by
  have hb : Balanced K T.count 1 0 1 c 2 := he.balanced hT (fun _ => rfl) (Nat.le_refl 1)
  have hbody (pre : List Instr) (i : Instr) (post : List Instr) (h : c = pre ++ i :: post) :
      i.SafeAt K T.count 1 (c ++ [.return_]) pre (post ++ [.return_]) :=
    (hb.safeAt [] [.return_] (Nat.le_refl 1) rfl rfl rfl pre post i h).2
  have hsafe (pre : List Instr) (i : Instr) (post : List Instr)
      (h : c ++ [.return_] = pre ++ i :: post) (hi : i ≠ .return_) :
      i.SafeAt K T.count 1 (c ++ [.return_]) pre post := by
    rcases append_cons_eq_append_cons h with ⟨r, hc, rfl⟩ | ⟨-, hret, -⟩ | ⟨q, -, hnil⟩
    · exact hbody pre i r hc
    · exact absurd hret hi
    · simp at hnil
  have hset : setCount (c ++ [Instr.return_]) = 0 := by
    rw [setCount_append, hb.setCount_eq_zero]
    rfl
  have hreads : (c ++ [Instr.return_]).filterMap Instr.globalRead?
      = body.blockReads (Scope.within T (param :: ps)) := by
    rw [List.filterMap_append, he.filterMap_globalRead? hT hcount]
    exact List.append_nil _
  have hwf := wellFormedBlock_of_safeAt (Nat.le_refl 1) hsafe
  rw [hset, hreads, Nat.add_zero] at hwf
  refine ⟨hwf.mono hglobals, ⟨c, rfl, fun hmem => ?_⟩, fun hmem => ?_, fun i hmem => ?_⟩
  · obtain ⟨pre, post, h⟩ := List.append_of_mem hmem
    exact hbody pre _ post h
  · obtain ⟨pre, post, h⟩ := List.append_of_mem hmem
    exact absurd (hsafe pre _ post h nofun).1 Nat.one_ne_zero
  · obtain ⟨pre, post, h⟩ := List.append_of_mem hmem
    exact absurd (hsafe pre _ post h nofun).1 Nat.one_ne_zero

open Emission

/-- The constants that an expression adds to the pool represent its integers and functions. -/
theorem Expr.represents_of_yields {globals : Nat} (hT : T.Bounded) (hcount : T.count ≤ maxSlots)
    (hglobals : T.count ≤ globals) {e : Expr} (ps : List String) {o p : Nat} {c : List Instr}
    {k : List Constant} (h : (e.emit (Scope.within T ps)).Yields o p c k) (hK : PoolHas K p k) :
    List.Forall₂ (Constant.Represents K.size globals) (e.poolEntries (Scope.within T ps)) k := by
  induction e generalizing ps o p c k with
  | integer s n =>
    obtain ⟨-, -, rfl⟩ := yields_constant h
    exact .cons .integer .nil
  | text s v => exact absurd h not_yields_fail
  | boolean s b =>
    obtain ⟨-, rfl⟩ := yields_instr h
    exact .nil
  | nil s =>
    obtain ⟨-, rfl⟩ := yields_instr h
    exact .nil
  | name s x =>
    obtain rfl : k = [] := List.eq_nil_of_length_eq_zero ((Expr.name s x).measures_emit _ h).2
    exact .nil
  | unary s op e ih =>
    obtain ⟨c₁, k₁, c₂, k₂, he, hop, rfl, rfl⟩ := yields_andThen h
    obtain ⟨-, rfl⟩ := yields_instr hop
    rw [List.append_nil] at hK ⊢
    exact ih ps he hK
  | binary s op l r ihl ihr =>
    rw [Expr.emit] at h
    cases hop : op.instr? with
    | none =>
      rw [hop] at h
      exact absurd h not_yields_fail
    | some i =>
      rw [hop] at h
      obtain ⟨c₁, k₁, c₂, k₂, hl, hrest, rfl, rfl⟩ := yields_andThen h
      obtain ⟨c₃, k₃, c₄, k₄, hr, hi, rfl, rfl⟩ := yields_andThen hrest
      obtain ⟨-, rfl⟩ := yields_instr hi
      rw [List.append_nil] at hK ⊢
      exact List.rel_append (ihl ps hl hK.left) (ihr ps hr hK.right)
  | ifThen s cond t ihc iht =>
    obtain ⟨c₀, k₀, c', k', hc, hb, rfl, rfl⟩ := yields_andThen h
    obtain ⟨c₁, k₁, c₂, k₂, ht, hn, -, rfl, rfl⟩ := yields_branches hb
    obtain ⟨-, rfl⟩ := yields_instr hn
    rw [List.append_nil] at hK ⊢
    exact List.rel_append (ihc ps hc hK.left) (iht ps ht hK.right)
  | ifElse s cond t e ihc iht ihe =>
    obtain ⟨c₀, k₀, c', k', hc, hb, rfl, rfl⟩ := yields_andThen h
    obtain ⟨c₁, k₁, c₂, k₂, ht, he, -, rfl, rfl⟩ := yields_branches hb
    rw [Expr.poolEntries, List.append_assoc]
    exact List.rel_append (ihc ps hc hK.left)
      (List.rel_append (iht ps ht hK.right.left) (ihe ps he hK.right.right))
  | lambda s param body ih =>
    obtain ⟨c₁, k₁, hb, -, rfl, rfl⟩ := yields_function h
    -- the constants of the body come first, so the function is the last entry
    have he := emits_of_yields (Q := fun _ _ => True) (param :: ps) hb hK.left fun _ _ => trivial
    refine List.rel_append (ih (param :: ps) hb hK.left) (.cons ?_ .nil)
    exact .function (Code.decode?_ofInstrs _) (he.functionBlock hT hcount hglobals)
  | apply s f a ihf iha =>
    obtain ⟨c₁, k₁, c₂, k₂, ha, hrest, rfl, rfl⟩ := yields_andThen h
    obtain ⟨c₃, k₃, c₄, k₄, hf, hi, rfl, rfl⟩ := yields_andThen hrest
    obtain ⟨-, rfl⟩ := yields_instr hi
    rw [List.append_nil] at hK ⊢
    exact List.rel_append (iha ps ha hK.left) (ihf ps hf hK.right)

end expressions

/-! ## Programs -/

section programs

variable {K : Array Constant} {Q : String → Nat → Prop}

/-- The code of the value of a statement sets no globals. -/
theorem Emits.setCount_eq_zero {T : SlotTable} {e : Expr} {o p p' : Nat} {c : List Instr}
    (he : Emits K (T.Reads Q) [] e o p c p') (hT : T.Bounded) : setCount c = 0 := by
  have hb : Balanced K T.count 0 o 0 c 1 := he.balanced hT (by simp) (Nat.le_refl 0)
  exact hb.setCount_eq_zero

/-- The main block sets one global for every definition. -/
theorem ProgramEmits.setCount_eq {T : SlotTable} {program : Program} {o p : Nat} {c : List Instr}
    (hp : ProgramEmits K Q T program o p c) (hT : T.Bounded) :
    setCount c = (Program.definedNames program).length := by
  induction hp with
  | nil => rfl
  | puts he _ ih | expression he _ ih =>
    rw [setCount_append, he.setCount_eq_zero hT, setCount_cons, ih hT, Program.definedNames_cons]
    simp [Instr.setsGlobal, Stmt.definedName?]
  | @define _ _ x _ _ _ _ _ _ _ _ he _ _ ih =>
    rw [setCount_append, he.setCount_eq_zero hT, setCount_cons, ih (hT.define x),
      Program.definedNames_cons]
    simp [Instr.setsGlobal, Stmt.definedName?]
  | @defineFunction _ _ x _ _ _ _ _ _ _ _ he _ _ ih =>
    rw [setCount_append, he.setCount_eq_zero (hT.define x), setCount_cons, ih (hT.define x),
      Program.definedNames_cons]
    simp [Instr.setsGlobal, Stmt.definedName?]

/-- The main block reads the globals of its first statement and then those of the rest. -/
theorem Program.blockReads_cons (stmt : Stmt) (stmts : Program) (scope : Scope) :
    Program.blockReads (stmt :: stmts) scope = stmt.value.blockReads (stmt.visible scope)
      ++ Program.blockReads stmts (stmt.scopeAfter scope) :=
  List.flatMap_cons

/-- The entries of the pool are those of the first statement and then those of the rest. -/
theorem Program.poolEntries_cons (stmt : Stmt) (stmts : Program) (scope : Scope) :
    Program.poolEntries (stmt :: stmts) scope = stmt.value.poolEntries (stmt.visible scope)
      ++ Program.poolEntries stmts (stmt.scopeAfter scope) :=
  List.flatMap_cons

/-- The main block reads the slots that the names at the top level stand for. -/
theorem ProgramEmits.filterMap_globalRead? {T : SlotTable} {program : Program} {o p : Nat}
    {c : List Instr} (hp : ProgramEmits K Q T program o p c) (hT : T.Bounded)
    (hcount : T.count ≤ maxSlots) :
    c.filterMap Instr.globalRead? = Program.blockReads program (.global T) := by
  induction hp with
  | nil => rfl
  | puts he _ ih | expression he _ ih =>
    rw [List.filterMap_append, List.filterMap_cons_none rfl, he.filterMap_globalRead? hT hcount,
      ih hT hcount, Program.blockReads_cons]
    rfl
  | @define T _ x e _ _ _ _ _ _ hl he hslot _ ih =>
    have hvisible : (Stmt.define ‹_› x e).visible (.global T) = .global T := by
      rw [Stmt.visible, hl]
      rfl
    rw [List.filterMap_append, List.filterMap_cons_none rfl, he.filterMap_globalRead? hT hcount,
      ih (hT.define x) hslot, Program.blockReads_cons, hvisible]
    rfl
  | @defineFunction T _ x e _ _ _ _ _ _ hl he hslot _ ih =>
    have hvisible : (Stmt.define ‹_› x e).visible (.global T) = .global (T.define x) := by
      rw [Stmt.visible, hl]
      rfl
    rw [List.filterMap_append, List.filterMap_cons_none rfl,
      he.filterMap_globalRead? (hT.define x) hslot, ih (hT.define x) hslot,
      Program.blockReads_cons, hvisible]
    rfl

/-- A table of names has handed out every slot in it. -/
theorem SlotTable.bounded_ofNames (names : List String) : (SlotTable.ofNames names).Bounded := by
  intro x i h
  obtain ⟨hi, -⟩ := slot?_ofNames_eq_some_iff.mp h
  rw [count_ofNames]
  exact (List.getElem?_eq_some_iff.mp hi).1

/-- The constants that a program adds to the pool represent its integers and functions. -/
theorem Program.represents_of_emit {globals : Nat} (hmax : globals ≤ maxSlots) {program : Program}
    {names : List String} {o p : Nat} {c : List Instr} {k : List Constant} {scope : Scope}
    (h : Program.emit program (Scope.ofNames names) o p = (⟨c, k, none⟩, scope))
    (hK : PoolHas K p k)
    (hnames : names.length + (Program.definedNames program).length ≤ globals) :
    List.Forall₂ (Constant.Represents K.size globals)
      (Program.poolEntries program (Scope.ofNames names)) k := by
  induction program generalizing names o p c k with
  | nil =>
    cases h
    exact .nil
  | cons stmt stmts ih =>
    obtain ⟨c₁, k₁, σ, c₂, k₂, hstmt, hrest, rfl, rfl⟩ := programEmit_cons_ok h
    obtain ⟨c₀, hvalue, -, rfl, rfl⟩ := Stmt.emit_eq_ok_iff.mp hstmt
    rw [Program.definedNames_cons, List.length_append, ← Nat.add_assoc] at hnames
    have hafter : (stmt.namesAfter names).length = names.length + stmt.definedName?.toList.length :=
      List.length_append
    have hvisible : (SlotTable.ofNames (stmt.visibleNames names)).count ≤ globals := by
      have hle := (stmt.visibleNames_prefix names).length_le
      rw [SlotTable.count_ofNames]
      omega
    rw [Program.poolEntries_cons, Scope.visible_ofNames, Scope.scopeAfter_ofNames]
    refine List.rel_append ?_ (ih hrest hK.right (by omega))
    exact Expr.represents_of_yields (SlotTable.bounded_ofNames _) (Nat.le_trans hvisible hmax) hvisible
      [] hvalue hK.left

/-- The main block of a program that is compiled from the start. -/
theorem ProgramEmits.mainBlock {program : Program} {c : List Instr}
    (hp : ProgramEmits K Q .empty program 0 0 c) :
    MainBlock K.size (Program.definedNames program).length (Program.blockReads program .empty) c := by
  have hT : SlotTable.empty.Bounded := SlotTable.bounded_empty
  have hsafe (pre : List Instr) (i : Instr) (post : List Instr) (h : c = pre ++ i :: post) :
      i.SafeAt K 0 0 c pre post :=
    hp.safeAt hT [] ⟨rfl, rfl, rfl⟩ pre post i h
  have hreads : c.filterMap Instr.globalRead? = Program.blockReads program .empty :=
    hp.filterMap_globalRead? hT (Nat.zero_le maxSlots)
  have hwf := wellFormedBlock_of_safeAt (Nat.zero_le 1) fun pre i post h _ => hsafe pre i post h
  rw [hp.setCount_eq hT, hreads, Nat.zero_add] at hwf
  refine ⟨hwf, ?_, fun hmem => ?_, fun i hmem => ?_⟩
  · rw [← hp.setCount_eq hT]
    refine filterMap_globalSet?_eq_range fun pre s post h => ?_
    obtain ⟨-, -, hslot⟩ := hsafe pre _ post h
    rw [hslot, Nat.zero_add]
  · obtain ⟨pre, post, h⟩ := List.append_of_mem hmem
    exact hsafe pre _ post h
  · obtain ⟨pre, post, h⟩ := List.append_of_mem hmem
    exact Nat.not_lt_zero _ (hsafe pre _ post h)

end programs

/-! ## Accepted programs -/

/-- What is known of a program with the bytecode `b`, whose main block has the instructions `c`. -/
structure Compiled (program : Program) (b : Bytecode) (c : List Instr) : Prop where
  main_eq : b.main = .ofInstrs c
  emit_eq : ∃ scope, Program.emit program (Scope.ofNames []) 0 0
    = (⟨c, b.constants.toList, none⟩, scope)
  definitions : (Program.definedNames program).length ≤ maxSlots

/-- What is known of a compiled program holds of what `compile` returns. -/
theorem compiled_of_compile {program : Program} {b : Bytecode} (h : compile program = .ok b) :
    ∃ c, Compiled program b c := by
  obtain ⟨c, scope, hemit, hmain⟩ := compile_eq_ok_iff.mp h
  have hsupported : Program.SupportedAt [] 0 0 program :=
    (Program.succeeds_iff (Nat.zero_le _) (Nat.zero_le _)).mp ⟨c, _, scope, hemit⟩
  have hdefinitions := hsupported.definitions
  rw [List.length_nil, Nat.zero_add] at hdefinitions
  exact ⟨c, hmain, ⟨scope, hemit⟩, hdefinitions⟩

namespace Compiled

variable {program : Program} {b : Bytecode} {c : List Instr}

/-- The pool of a bytecode holds its constants from the first place on. -/
theorem poolHas (b : Bytecode) : PoolHas b.constants 0 b.constants.toList := by
  intro j v hj
  simpa using hj

/-- The main block of a compiled program is derived from the program. -/
theorem emits (h : Compiled program b c) :
    ProgramEmits b.constants (fun _ _ => True) .empty program 0 0 c := by
  obtain ⟨scope, hemit⟩ := h.emit_eq
  exact programEmits_of_yields hemit (poolHas b) fun _ _ => trivial

/-- Every boundary of the main block is safe. -/
theorem safeAt (h : Compiled program b c) (pre rest : List Instr) (i : Instr)
    (hsplit : c = pre ++ i :: rest) : i.SafeAt b.constants 0 0 c pre rest :=
  h.emits.safeAt SlotTable.bounded_empty [] ⟨rfl, rfl, rfl⟩ pre rest i hsplit

/-- The constants of a compiled program represent its integers and functions. -/
theorem represents (h : Compiled program b c) :
    List.Forall₂ (Constant.Represents b.constants.size (Program.definedNames program).length)
      (Program.poolEntries program .empty) b.constants.toList := by
  obtain ⟨scope, hemit⟩ := h.emit_eq
  exact Program.represents_of_emit h.definitions hemit (poolHas b) (Nat.le_of_eq (Nat.zero_add _))

end Compiled

/-- **Every block of a compiled program is well-formed.** The main block and the functions in the
pool can be read back as instructions; the constants of the pool belong to the integers and
functions of the program, in order. -/
theorem compile_wellFormed {program : Program} {b : Bytecode} (h : compile program = .ok b) :
    (∃ is, b.main.decode? = some is ∧
      MainBlock b.constants.size (Program.definedNames program).length
        (Program.blockReads program .empty) is) ∧
    List.Forall₂ (Constant.Represents b.constants.size (Program.definedNames program).length)
      (Program.poolEntries program .empty) b.constants.toList := by
  obtain ⟨c, hcompiled⟩ := compiled_of_compile h
  refine ⟨⟨c, ?_, hcompiled.emits.mainBlock⟩, hcompiled.represents⟩
  rw [hcompiled.main_eq]
  exact Code.decode?_ofInstrs c

/-- A function with nested conditionals, which calls itself, and which reads a global that is defined
again behind it. -/
def shadowedStart : Program :=
  [.define default "x" (.integer default 1),
    .define default "f" (.lambda default "n"
      (.ifThen default (.binary default .notEquals (.name default "n") (.name default "x"))
        (.ifElse default (.name default "n") (.integer default 2)
          (.apply default (.name default "f") (.name default "x"))))),
    .define default "x" (.integer default 3),
    .puts default (.apply default (.name default "f") (.name default "x"))]

/-- The bytecode of `shadowedStart`. -/
def shadowedStartCode : Bytecode :=
  ⟨.ofInstrs [.constant 0, .setGlobal 0, .constant 2, .setGlobal 1, .constant 3, .setGlobal 2,
      .getGlobal 2, .getGlobal 1, .call, .pop],
    #[.integer 1, .integer 2,
      .function (.ofInstrs [.getLocal 0, .getGlobal 0, .notEqual, .jumpIfNotTrue 26, .getLocal 0,
        .jumpIfNotTrue 18, .constant 1, .jump 23, .getGlobal 0, .getGlobal 1, .call, .jump 27, .nil,
        .return_]),
      .integer 3]⟩

/-- The top level reads the second definition of the name, and the function the first one. -/
theorem compile_wellFormed_shadowedStart :
    compile shadowedStart = .ok shadowedStartCode ∧
    (∃ is, shadowedStartCode.main.decode? = some is ∧ MainBlock 4 3 [2, 1] is) ∧
    List.Forall₂ (Constant.Represents 4 3) (Program.poolEntries shadowedStart .empty)
      shadowedStartCode.constants.toList := by
  have hcompile : compile shadowedStart = .ok shadowedStartCode := rfl
  exact ⟨hcompile, compile_wellFormed hcompile⟩

end Duet
