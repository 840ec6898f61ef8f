import Duet.Proofs.WellFormedBlocks

/-!
# The constant pool

All blocks of a program share one pool. While an expression is compiled, its code goes to one block,
the bodies of its functions go to others, and each integer and each function takes the next place of
the pool. So the pool is the list of the integers and functions of the program, in the order in which
they are compiled, and every place is loaded at the one point of the program for which it was taken.

* `Constant.Holds`: what stands at a place of the pool that an integer or a function has taken. For a
  function this is the code of its body, compiled with the places in front of its own.
* `loads`: the places that a block loads.
* `Pooled`: code, the constants that it added to the pool, and the integers and functions that these
  belong to. There is one lemma for each way to build emissions.
* `pool_of_compile`: the pool of an accepted program.
-/

namespace Duet

/-! ## Places of the pool -/

/-- The place of the pool that an instruction loads. -/
def Instr.load? : Instr → Option Nat
  | .constant index => some index.toNat
  | _ => none

/-- The places of the pool that instructions load, in order. -/
def loads (is : List Instr) : List Nat :=
  is.filterMap Instr.load?

/-- The loads of code in two parts are those of both, in order. -/
theorem loads_append (is is' : List Instr) : loads (is ++ is') = loads is ++ loads is' :=
  List.filterMap_append

/-- The loading of a constant loads its place, as long as this fits into a byte. -/
theorem loads_constant {p : Nat} (hp : p < maxSlots) : loads [.constant p.toUInt8] = [p] :=
  congrArg (fun n => [n]) (toNat_toUInt8 hp)

/-- The code of a constant that is a function. -/
def Constant.code? : Constant → Option Code
  | .function code => some code
  | _ => none

/-- The main block and the functions of the pool. -/
def Bytecode.blocks (b : Bytecode) : List Code :=
  b.main :: b.constants.toList.filterMap Constant.code?

/-- What stands at a place of the pool that belongs to an integer or to a function: the integer, or the
code of the body, with a `return` behind it. The constants of the body stand right in front. -/
inductive Constant.Holds : Scope × Expr → Constant × Nat → Prop
  | integer {scope s p} {n : Nat} : Holds (scope, .integer s n) (.integer n, p)
  | function {scope s param body p is k} :
      (body.emit (scope.enclose.define param)).Yields 0 p is k →
      Holds (scope, .lambda s param body) (.function (.ofInstrs (is ++ [.return_])), p + k.length)

/-! ## Code and its constants -/

/-- The code `c` and the constants `k`, which stand in the pool from place `p` on, belong to the given
integers and functions. -/
structure Pooled (p : Nat) (entries : List (Scope × Expr)) (c : List Instr) (k : List Constant) :
    Prop where
  /-- The constants are those of the integers and functions, in order. -/
  listed : List.Forall₂ Constant.Holds entries (k.zipIdx p)
  /-- Each of their places is loaded once, by the code or by one of the functions. -/
  loaded : ∃ bodies : List (List Instr), k.filterMap Constant.code? = bodies.map .ofInstrs ∧
    (loads c ++ bodies.flatMap loads).Perm (List.range' p k.length)

namespace Pooled

open scoped List

variable {p : Nat} {entries entries' : List (Scope × Expr)} {c c' : List Instr}
  {k k' : List Constant}

/-- Instructions that load nothing have no constants. -/
theorem of_loads_eq_nil (h : loads c = []) : Pooled p [] c [] where
  listed := .nil
  loaded := ⟨[], rfl, by rw [h]; exact .nil⟩

/-- Code and constants in two parts belong to the integers and functions of both. -/
theorem append (h : Pooled p entries c k) (h' : Pooled (p + k.length) entries' c' k') :
    Pooled p (entries ++ entries') (c ++ c') (k ++ k') where
  listed := by
    rw [List.zipIdx_append]
    exact List.rel_append h.listed h'.listed
  loaded := by
    obtain ⟨bodies, hcode, hperm⟩ := h.loaded
    obtain ⟨bodies', hcode', hperm'⟩ := h'.loaded
    refine ⟨bodies ++ bodies', ?_, ?_⟩
    · rw [List.filterMap_append, hcode, hcode', List.map_append]
    · rw [loads_append, List.flatMap_append, List.length_append, ← List.range'_append_1]
      calc loads c ++ loads c' ++ (bodies.flatMap loads ++ bodies'.flatMap loads)
        _ = loads c ++ (loads c' ++ (bodies.flatMap loads ++ bodies'.flatMap loads)) :=
          List.append_assoc ..
        _ ~ loads c ++ (bodies.flatMap loads ++ (loads c' ++ bodies'.flatMap loads)) :=
          .append_left _ (List.perm_append_comm_assoc ..)
        _ = loads c ++ bodies.flatMap loads ++ (loads c' ++ bodies'.flatMap loads) :=
          (List.append_assoc ..).symm
        _ ~ List.range' p k.length ++ List.range' (p + k.length) k'.length := hperm.append hperm'

/-- Code that loads nothing may stand in front. -/
theorem cons_of_load?_eq_none {i : Instr} (h : Pooled p entries c k) (hi : i.load? = none) :
    Pooled p entries (i :: c) k := by
  obtain ⟨bodies, hcode, hperm⟩ := h.loaded
  refine ⟨h.listed, bodies, hcode, ?_⟩
  rwa [loads, List.filterMap_cons_none hi]

/-- Code that loads nothing may follow. -/
theorem append_of_loads_eq_nil (h : Pooled p entries c k) (hc' : loads c' = []) :
    Pooled p entries (c ++ c') k := by
  have happend := h.append (of_loads_eq_nil hc')
  rwa [List.append_nil, List.append_nil] at happend

/-- An integer belongs to one constant and its loading. -/
theorem integer {scope : Scope} {s : Span} {n : Nat} (hp : p < maxSlots) :
    Pooled p [(scope, .integer s n)] [.constant p.toUInt8] [.integer n] where
  listed := .cons .integer .nil
  loaded := ⟨[], rfl, by rw [loads_constant hp]; exact .refl _⟩

/-- A function takes its place behind those of its body, whose code becomes a block. -/
theorem function {scope : Scope} {s : Span} {param : String} {body : Expr}
    (h : Pooled p entries c k) (hbody : (body.emit (scope.enclose.define param)).Yields 0 p c k)
    (hp : p + k.length < maxSlots) :
    Pooled p (entries ++ [(scope, .lambda s param body)]) [.constant (p + k.length).toUInt8]
      (k ++ [.function (.ofInstrs (c ++ [.return_]))]) where
  listed := by
    rw [List.zipIdx_append]
    exact List.rel_append h.listed (.cons (.function hbody) .nil)
  loaded := by
    obtain ⟨bodies, hcode, hperm⟩ := h.loaded
    refine ⟨bodies ++ [c ++ [.return_]], ?_, ?_⟩
    · rw [List.filterMap_append, hcode, List.map_append]
      rfl
    · have hreturn : loads (c ++ [.return_]) = loads c := by
        rw [loads_append]
        exact List.append_nil _
      rw [loads_constant hp, List.flatMap_append, List.flatMap_singleton, hreturn,
        List.length_append, List.length_singleton, List.range'_1_concat]
      calc [p + k.length] ++ (bodies.flatMap loads ++ loads c)
        _ ~ (bodies.flatMap loads ++ loads c) ++ [p + k.length] := List.perm_append_comm
        _ ~ (loads c ++ bodies.flatMap loads) ++ [p + k.length] :=
          List.perm_append_comm.append_right _
        _ ~ List.range' p k.length ++ [p + k.length] := hperm.append_right _

end Pooled

section expressions

open Emission

/-- The instruction of an operator loads nothing. -/
theorem BinaryOp.loads_eq_nil {op : BinaryOp} {i : Instr} (h : op.instr? = some i) :
    loads [i] = [] := by
  cases op with
  | arith op | equals | notEquals =>
    cases h
    rfl
  | and | or => cases h

/-- The reading of a name loads no constant and adds none. -/
theorem Scope.yields_emitName {scope : Scope} {x : String} {s : Span} {o p : Nat} {c : List Instr}
    {k : List Constant} (h : (scope.emitName x s).Yields o p c k) : loads c = [] ∧ k = [] := by
  unfold Scope.emitName at h
  split at h
  · exact absurd h not_yields_fail
  · obtain ⟨rfl, rfl⟩ := yields_instr h
    exact ⟨rfl, rfl⟩
  · obtain ⟨rfl, rfl⟩ := yields_instr h
    exact ⟨rfl, rfl⟩
  · exact absurd h not_yields_fail

/-- What an expression adds to the pool belongs to its integers and functions. -/
theorem Expr.pooled_of_yields {e : Expr} {scope : Scope} {o p : Nat} {c : List Instr}
    {k : List Constant} (h : (e.emit scope).Yields o p c k) :
    Pooled p (e.poolEntries scope) c k := by
  induction e generalizing scope o p c k with
  | integer s n =>
    obtain ⟨hp, rfl, rfl⟩ := yields_constant h
    exact .integer hp
  | text s v => exact absurd h not_yields_fail
  | boolean s b =>
    obtain ⟨rfl, rfl⟩ := yields_instr h
    exact .of_loads_eq_nil rfl
  | nil s =>
    obtain ⟨rfl, rfl⟩ := yields_instr h
    exact .of_loads_eq_nil rfl
  | name s x =>
    obtain ⟨hc, rfl⟩ := Scope.yields_emitName h
    exact .of_loads_eq_nil hc
  | unary s op e ih =>
    obtain ⟨c₁, k₁, c₂, k₂, he, hop, rfl, rfl⟩ := yields_andThen h
    obtain ⟨rfl, rfl⟩ := yields_instr hop
    rw [List.append_nil]
    refine (ih he).append_of_loads_eq_nil ?_
    cases op <;> rfl
  | binary s op l r ihl ihr =>
    rw [Expr.emit] at h
    cases hop : op.instr? with
    | none =>
      rw [hop] at h
      exact absurd h not_yields_fail
    | some i =>
      rw [hop] at h
      obtain ⟨c₁, k₁, c₂, k₂, hl, hrest, rfl, rfl⟩ := yields_andThen h
      obtain ⟨c₃, k₃, c₄, k₄, hr, hi, rfl, rfl⟩ := yields_andThen hrest
      obtain ⟨rfl, rfl⟩ := yields_instr hi
      rw [List.append_nil]
      exact (ihl hl).append ((ihr hr).append_of_loads_eq_nil (BinaryOp.loads_eq_nil hop))
  | ifThen s cond t ihc iht =>
    obtain ⟨c₀, k₀, c', k', hc, hb, rfl, rfl⟩ := yields_andThen h
    obtain ⟨c₁, k₁, c₂, k₂, ht, hn, -, rfl, rfl⟩ := yields_branches hb
    obtain ⟨rfl, rfl⟩ := yields_instr hn
    rw [List.append_nil]
    exact (ihc hc).append (((iht ht).append_of_loads_eq_nil rfl).cons_of_load?_eq_none rfl)
  | ifElse s cond t e ihc iht ihe =>
    obtain ⟨c₀, k₀, c', k', hc, hb, rfl, rfl⟩ := yields_andThen h
    obtain ⟨c₁, k₁, c₂, k₂, ht, he, -, rfl, rfl⟩ := yields_branches hb
    rw [Expr.poolEntries, List.append_assoc]
    refine (ihc hc).append (Pooled.cons_of_load?_eq_none ?_ rfl)
    exact (iht ht).append ((ihe he).cons_of_load?_eq_none rfl)
  | lambda s param body ih =>
    obtain ⟨c₁, k₁, hb, hp, rfl, rfl⟩ := yields_function h
    exact (ih hb).function hb hp
  | apply s f a ihf iha =>
    obtain ⟨c₁, k₁, c₂, k₂, ha, hrest, rfl, rfl⟩ := yields_andThen h
    obtain ⟨c₃, k₃, c₄, k₄, hf, hi, rfl, rfl⟩ := yields_andThen hrest
    obtain ⟨rfl, rfl⟩ := yields_instr hi
    rw [List.append_nil]
    exact (iha ha).append ((ihf hf).append_of_loads_eq_nil rfl)

end expressions

/-! ## Programs -/

/-- What a program adds to the pool belongs to its integers and functions. -/
theorem Program.pooled_of_emit {program : Program} {names : List String} {o p : Nat}
    {c : List Instr} {k : List Constant} {scope : Scope}
    (h : Program.emit program (Scope.ofNames names) o p = (⟨c, k, none⟩, scope)) :
    Pooled p (Program.poolEntries program (Scope.ofNames names)) c k := by
  induction program generalizing names o p c k with
  | nil =>
    cases h
    exact .of_loads_eq_nil rfl
  | cons stmt stmts ih =>
    obtain ⟨c₁, k₁, σ, c₂, k₂, hstmt, hrest, rfl, rfl⟩ := programEmit_cons_ok h
    obtain ⟨c₀, hvalue, -, rfl, rfl⟩ := Stmt.emit_eq_ok_iff.mp hstmt
    rw [Program.poolEntries_cons, Scope.visible_ofNames, Scope.scopeAfter_ofNames]
    refine ((Expr.pooled_of_yields hvalue).append_of_loads_eq_nil ?_).append (ih hrest)
    cases stmt <;> rfl

/-- The places of the pool go to every integer and every function of an expression. -/
theorem Expr.poolEntries_perm (e : Expr) (scope : Scope) :
    ((e.poolEntries scope).map Prod.snd).Perm (e.subterms.filter Expr.takesConstant) := by
  induction e generalizing scope with
  | integer | text | boolean | nil | name => exact .refl _
  | unary s op e ih => exact ih scope
  | binary s op l r ihl ihr | ifThen s l r ihl ihr =>
    rw [poolEntries, List.map_append, subterms, List.filter_cons_of_neg (by simp [takesConstant]),
      List.filter_append]
    exact (ihl scope).append (ihr scope)
  | ifElse s c t e ihc iht ihe =>
    rw [poolEntries, List.map_append, List.map_append, subterms,
      List.filter_cons_of_neg (by simp [takesConstant]), List.filter_append, List.filter_append]
    exact ((ihc scope).append (iht scope)).append (ihe scope)
  | lambda s param body ih =>
    rw [poolEntries, List.map_append, subterms, List.filter_cons_of_pos rfl]
    exact List.perm_append_comm.trans ((ih _).cons _)
  | apply s f a ihf iha =>
    rw [poolEntries, List.map_append, subterms, List.filter_cons_of_neg (by simp [takesConstant]),
      List.filter_append]
    exact List.perm_append_comm.trans ((ihf scope).append (iha scope))

/-- The entries of the pool are the integers and functions of the program, in another order. -/
theorem Program.poolEntries_perm (program : Program) (scope : Scope) :
    ((Program.poolEntries program scope).map Prod.snd).Perm
      ((Program.subterms program).filter Expr.takesConstant) := by
  induction program generalizing scope with
  | nil => exact .refl _
  | cons stmt stmts ih =>
    rw [Program.poolEntries_cons, List.map_append, Program.subterms, List.flatMap_cons,
      List.filter_append]
    exact (stmt.value.poolEntries_perm _).append (ih _)

/-- **The pool lists what was compiled, in order.** The pool of an accepted program has one place for
each of its integers and functions, in the order in which they are compiled, and equal ones do not
share a place. The main block and the functions of the pool can be read back as instructions, and of
all these instructions, one loads each place. -/
theorem pool_of_compile {program : Program} {b : Bytecode} (h : compile program = .ok b) :
    List.Forall₂ Constant.Holds (Program.poolEntries program .empty) b.constants.toList.zipIdx ∧
    ((Program.poolEntries program .empty).map Prod.snd).Perm
      ((Program.subterms program).filter Expr.takesConstant) ∧
    ∃ blocks : List (List Instr), b.blocks.map Code.decode? = blocks.map some ∧
      (blocks.flatMap loads).Perm (List.range b.constants.size) := by
  obtain ⟨c, hcompiled⟩ := compiled_of_compile h
  obtain ⟨scope, hemit⟩ := hcompiled.emit_eq
  obtain ⟨hlisted, bodies, hcode, hperm⟩ := Program.pooled_of_emit hemit
  refine ⟨hlisted, Program.poolEntries_perm program .empty, c :: bodies, ?_, ?_⟩
  · rw [Bytecode.blocks, hcompiled.main_eq, hcode, ← List.map_cons, List.map_map]
    exact List.map_congr_left fun is _ => Code.decode?_ofInstrs is
  · rw [List.flatMap_cons, List.range_eq_range']
    exact hperm

/-- A function whose body calls another function as it stands, with the same integer three times. -/
def repeatedOne : Program :=
  [.define default "f" (.lambda default "x" (.apply default
      (.lambda default "y" (.binary default (.arith .add) (.name default "y") (.integer default 1)))
      (.binary default (.arith .add) (.name default "x") (.integer default 1)))),
    .puts default (.apply default (.name default "f") (.integer default 1))]

/-- The bytecode of `repeatedOne`. The argument of the inner call comes first, then the inner function
behind its body, then the outer function. -/
def repeatedOneCode : Bytecode :=
  ⟨.ofInstrs [.constant 3, .setGlobal 0, .constant 4, .getGlobal 0, .call, .pop],
    #[.integer 1, .integer 1,
      .function (.ofInstrs [.getLocal 0, .constant 1, .arith .add, .return_]),
      .function (.ofInstrs [.getLocal 0, .constant 0, .arith .add, .constant 2, .call, .return_]),
      .integer 1]⟩

/-- The three equal integers have three places of the pool, and each of the five places is loaded
once. -/
theorem pool_repeatedOne :
    compile repeatedOne = .ok repeatedOneCode ∧
    List.Forall₂ Constant.Holds (Program.poolEntries repeatedOne .empty)
      repeatedOneCode.constants.toList.zipIdx ∧
    ((Program.poolEntries repeatedOne .empty).map Prod.snd).Perm
      ((Program.subterms repeatedOne).filter Expr.takesConstant) ∧
    ∃ blocks : List (List Instr), repeatedOneCode.blocks.map Code.decode? = blocks.map some ∧
      (blocks.flatMap loads).Perm [0, 1, 2, 3, 4] := by
  have hcompile : compile repeatedOne = .ok repeatedOneCode := rfl
  exact ⟨hcompile, pool_of_compile hcompile⟩

end Duet
