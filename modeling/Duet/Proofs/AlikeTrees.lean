import Duet.Tree.Basic
import Mathlib.Data.List.Forall2

/-!
# Trees that differ in the names of parameters only

Two trees are alike if they have the same form and the same spans, and if at corresponding places
they read the same parameter, counted from the inside, or the same global. What the parameters are
called does not matter: `Expr.Alike` compares names through the lists of parameters around them
(`SameBinding`).

* `Expr.renameReads`: the reads of a parameter, that is, those that no inner function of the same
  parameter hides, under another name.
* `Expr.RenamesParam`: one function somewhere in a tree has been given another parameter, together
  with the reads that belong to it.
* `Program.RenamesParam.alike`: if the new name occurs nowhere in the program, the result is alike.
-/

namespace Duet

/-! ## Renaming the parameter of a function -/

namespace Expr

/-- The names in an expression, those of parameters included. -/
def identifiers : Expr → List String
  | .integer .. | .text .. | .boolean .. | .nil _ => []
  | .name _ x => [x]
  | .unary _ _ e => e.identifiers
  | .binary _ _ l r => l.identifiers ++ r.identifiers
  | .ifThen _ c t => c.identifiers ++ t.identifiers
  | .ifElse _ c t e => c.identifiers ++ t.identifiers ++ e.identifiers
  | .lambda _ param body => param :: body.identifiers
  | .apply _ f a => f.identifiers ++ a.identifiers

/-- The expression with `y` in place of `x` wherever `x` is read and belongs to a function around
the expression. -/
def renameReads (x y : String) : Expr → Expr
  | .integer s v => .integer s v
  | .text s v => .text s v
  | .boolean s v => .boolean s v
  | .nil s => .nil s
  | .name s z => .name s (if z = x then y else z)
  | .unary s op e => .unary s op (e.renameReads x y)
  | .binary s op l r => .binary s op (l.renameReads x y) (r.renameReads x y)
  | .ifThen s c t => .ifThen s (c.renameReads x y) (t.renameReads x y)
  | .ifElse s c t e => .ifElse s (c.renameReads x y) (t.renameReads x y) (e.renameReads x y)
  | .lambda s param body => .lambda s param (if param = x then body else body.renameReads x y)
  | .apply s f a => .apply s (f.renameReads x y) (a.renameReads x y)

/-- The second expression is the first one after the parameter of exactly one function, and the
reads that belong to it, have been renamed to `y`. -/
inductive RenamesParam (y : String) : Expr → Expr → Prop
  | here (s : Span) (x : String) (body : Expr) :
      RenamesParam y (.lambda s x body) (.lambda s y (body.renameReads x y))
  | operand {e e' : Expr} (s : Span) (op : UnaryOp) :
      RenamesParam y e e' → RenamesParam y (.unary s op e) (.unary s op e')
  | left {l l' : Expr} (s : Span) (op : BinaryOp) (r : Expr) :
      RenamesParam y l l' → RenamesParam y (.binary s op l r) (.binary s op l' r)
  | right {r r' : Expr} (s : Span) (op : BinaryOp) (l : Expr) :
      RenamesParam y r r' → RenamesParam y (.binary s op l r) (.binary s op l r')
  | shortCondition {c c' : Expr} (s : Span) (t : Expr) :
      RenamesParam y c c' → RenamesParam y (.ifThen s c t) (.ifThen s c' t)
  | shortConsequence {t t' : Expr} (s : Span) (c : Expr) :
      RenamesParam y t t' → RenamesParam y (.ifThen s c t) (.ifThen s c t')
  | condition {c c' : Expr} (s : Span) (t e : Expr) :
      RenamesParam y c c' → RenamesParam y (.ifElse s c t e) (.ifElse s c' t e)
  | consequence {t t' : Expr} (s : Span) (c e : Expr) :
      RenamesParam y t t' → RenamesParam y (.ifElse s c t e) (.ifElse s c t' e)
  | alternative {e e' : Expr} (s : Span) (c t : Expr) :
      RenamesParam y e e' → RenamesParam y (.ifElse s c t e) (.ifElse s c t e')
  | body {b b' : Expr} (s : Span) (param : String) :
      RenamesParam y b b' → RenamesParam y (.lambda s param b) (.lambda s param b')
  | function {f f' : Expr} (s : Span) (a : Expr) :
      RenamesParam y f f' → RenamesParam y (.apply s f a) (.apply s f' a)
  | argument {a a' : Expr} (s : Span) (f : Expr) :
      RenamesParam y a a' → RenamesParam y (.apply s f a) (.apply s f a')

end Expr

/-- The names in a statement, that of a definition included. -/
def Stmt.identifiers : Stmt → List String
  | .define _ x value => x :: value.identifiers
  | .puts _ value | .expression value => value.identifiers

/-- The names in a program. -/
def Program.identifiers (program : Program) : List String :=
  program.flatMap Stmt.identifiers

/-- The second statement is the first one after the parameter of one function in it has been
renamed to `y`. -/
inductive Stmt.RenamesParam (y : String) : Stmt → Stmt → Prop
  | define {e e' : Expr} (s : Span) (x : String) :
      e.RenamesParam y e' → RenamesParam y (.define s x e) (.define s x e')
  | puts {e e' : Expr} (s : Span) : e.RenamesParam y e' → RenamesParam y (.puts s e) (.puts s e')
  | expression {e e' : Expr} : e.RenamesParam y e' → RenamesParam y (.expression e) (.expression e')

/-- The second program is the first one after the parameter of one function in it has been renamed
to `y`. -/
inductive Program.RenamesParam (y : String) : Program → Program → Prop
  | head {stmt stmt' : Stmt} (stmts : Program) :
      stmt.RenamesParam y stmt' → RenamesParam y (stmt :: stmts) (stmt' :: stmts)
  | tail {stmts stmts' : Program} (stmt : Stmt) :
      RenamesParam y stmts stmts' → RenamesParam y (stmt :: stmts) (stmt :: stmts')

/-! ## Trees that are alike -/

/-- Inside functions with the parameters `ps` and inside functions with the parameters `ps'`, the
innermost first, two names stand for the same parameter or for the same global. -/
inductive SameBinding : (ps ps' : List String) → String → String → Prop
  | innermost (x x' : String) (ps ps' : List String) : SameBinding (x :: ps) (x' :: ps') x x'
  | outer {x x' p p' : String} {ps ps' : List String} :
      x ≠ p → x' ≠ p' → SameBinding ps ps' x x' → SameBinding (p :: ps) (p' :: ps') x x'
  | global (x : String) : SameBinding [] [] x x

/-- Inside functions with the parameters `ps` and `ps'`, the expressions are the same up to the
names of parameters. -/
inductive Expr.Alike : (ps ps' : List String) → Expr → Expr → Prop
  | integer {ps ps'} (s : Span) (v : Nat) : Alike ps ps' (.integer s v) (.integer s v)
  | text {ps ps'} (s : Span) (v : String) : Alike ps ps' (.text s v) (.text s v)
  | boolean {ps ps'} (s : Span) (v : Bool) : Alike ps ps' (.boolean s v) (.boolean s v)
  | nil {ps ps'} (s : Span) : Alike ps ps' (.nil s) (.nil s)
  | name {ps ps' x x'} (s : Span) :
      SameBinding ps ps' x x' → Alike ps ps' (.name s x) (.name s x')
  | unary {ps ps' e e'} (s : Span) (op : UnaryOp) :
      Alike ps ps' e e' → Alike ps ps' (.unary s op e) (.unary s op e')
  | binary {ps ps' l l' r r'} (s : Span) (op : BinaryOp) :
      Alike ps ps' l l' → Alike ps ps' r r' → Alike ps ps' (.binary s op l r) (.binary s op l' r')
  | ifThen {ps ps' c c' t t'} (s : Span) :
      Alike ps ps' c c' → Alike ps ps' t t' → Alike ps ps' (.ifThen s c t) (.ifThen s c' t')
  | ifElse {ps ps' c c' t t' e e'} (s : Span) :
      Alike ps ps' c c' → Alike ps ps' t t' → Alike ps ps' e e' →
      Alike ps ps' (.ifElse s c t e) (.ifElse s c' t' e')
  | lambda {ps ps' param param' b b'} (s : Span) :
      Alike (param :: ps) (param' :: ps') b b' →
      Alike ps ps' (.lambda s param b) (.lambda s param' b')
  | apply {ps ps' f f' a a'} (s : Span) :
      Alike ps ps' f f' → Alike ps ps' a a' → Alike ps ps' (.apply s f a) (.apply s f' a')

/-- The statements are the same up to the names of parameters. -/
inductive Stmt.Alike : Stmt → Stmt → Prop
  | define {e e'} (s : Span) (x : String) :
      Expr.Alike [] [] e e' → Alike (.define s x e) (.define s x e')
  | puts {e e'} (s : Span) : Expr.Alike [] [] e e' → Alike (.puts s e) (.puts s e')
  | expression {e e'} : Expr.Alike [] [] e e' → Alike (.expression e) (.expression e')

/-- The programs are the same up to the names of parameters. -/
abbrev Program.Alike (program program' : Program) : Prop :=
  List.Forall₂ Stmt.Alike program program'

/-- A name is bound by the same function as itself. -/
theorem SameBinding.refl (ps : List String) (x : String) : SameBinding ps ps x x := by
  induction ps with
  | nil => exact .global x
  | cons p ps ih =>
    by_cases hx : x = p
    · subst hx
      exact .innermost x x ps ps
    · exact .outer hx hx ih

/-- An expression is alike itself if each of its names has the same binding on both sides. -/
theorem Expr.Alike.of_identifiers {ps ps' : List String} {e : Expr}
    (h : ∀ z ∈ e.identifiers, SameBinding ps ps' z z) : e.Alike ps ps' e := by
  induction e generalizing ps ps' with
  | integer s v => exact .integer s v
  | text s v => exact .text s v
  | boolean s v => exact .boolean s v
  | nil s => exact .nil s
  | name s x => exact .name s (h x (List.mem_singleton_self x))
  | unary s op e ih => exact .unary s op (ih h)
  | binary s op l r ihl ihr =>
    obtain ⟨hl, hr⟩ := List.forall_mem_append.mp h
    exact .binary s op (ihl hl) (ihr hr)
  | ifThen s c t ihc iht =>
    obtain ⟨hc, ht⟩ := List.forall_mem_append.mp h
    exact .ifThen s (ihc hc) (iht ht)
  | ifElse s c t e ihc iht ihe =>
    obtain ⟨hct, he⟩ := List.forall_mem_append.mp h
    obtain ⟨hc, ht⟩ := List.forall_mem_append.mp hct
    exact .ifElse s (ihc hc) (iht ht) (ihe he)
  | lambda s param body ih =>
    refine .lambda s (ih fun z hz => ?_)
    by_cases hparam : z = param
    · subst hparam
      exact .innermost z z ps ps'
    · exact .outer hparam hparam (h z (List.mem_cons_of_mem _ hz))
  | apply s f a ihf iha =>
    obtain ⟨hf, ha⟩ := List.forall_mem_append.mp h
    exact .apply s (ihf hf) (iha ha)

/-- An expression is alike to itself. -/
theorem Expr.Alike.refl (ps : List String) (e : Expr) : e.Alike ps ps e :=
  .of_identifiers fun z _ => .refl ps z

/-- A statement is alike to itself. -/
theorem Stmt.Alike.refl (stmt : Stmt) : stmt.Alike stmt := by
  cases stmt with
  | define s x e => exact .define s x (.refl [] e)
  | puts s e => exact .puts s (.refl [] e)
  | expression e => exact .expression (.refl [] e)

/-- A program is alike to itself. -/
theorem Program.Alike.refl (program : Program) : Program.Alike program program :=
  List.forall₂_same.mpr fun stmt _ => .refl stmt

/-! ## What has been renamed is alike -/

section fresh

variable {x y z : String} {inner outer : List String}

/-- A name other than `x` and `y` does not see that a parameter `x` is called `y`. -/
theorem SameBinding.of_ne (hx : z ≠ x) (hy : z ≠ y) :
    SameBinding (inner ++ x :: outer) (inner ++ y :: outer) z z := by
  induction inner with
  | nil => exact .outer hx hy (.refl outer z)
  | cons p inner ih =>
    by_cases hp : z = p
    · subst hp
      exact .innermost z z _ _
    · exact .outer hp hp ih

/-- A parameter that is called `y` instead of `x`, read where no function further in hides it. -/
theorem SameBinding.renamed (hx : x ∉ inner) (hy : y ∉ inner) :
    SameBinding (inner ++ x :: outer) (inner ++ y :: outer) x y := by
  induction inner with
  | nil => exact .innermost x y outer outer
  | cons p inner ih =>
    rw [List.mem_cons, not_or] at hx hy
    exact .outer hx.1 hy.1 (ih hx.2 hy.2)

/-- A function further in that hides the parameter hides its new name as well. -/
theorem SameBinding.hidden {inner : List String} (hx : x ∈ inner) (hy : z ≠ y) :
    SameBinding (inner ++ x :: outer) (inner ++ y :: outer) z z := by
  induction inner with
  | nil => exact absurd hx List.not_mem_nil
  | cons p inner ih =>
    by_cases hp : z = p
    · subst hp
      exact .innermost z z _ _
    · refine .outer hp hp ?_
      rcases List.mem_cons.mp hx with rfl | hx
      · exact .of_ne hp hy
      · exact ih hx

/-- Below the renamed parameter, with `inner` for the parameters in between. None of these is `x`,
because the renaming stops there, and none is `y`, because `y` is new. -/
theorem Expr.alike_renameReads {e : Expr} (hfresh : y ∉ e.identifiers) (inner : List String)
    (hx : x ∉ inner) (hy : y ∉ inner) :
    e.Alike (inner ++ x :: outer) (inner ++ y :: outer) (e.renameReads x y) := by
  induction e generalizing inner with
  | integer s v => exact .integer s v
  | text s v => exact .text s v
  | boolean s v => exact .boolean s v
  | nil s => exact .nil s
  | name s z =>
    refine .name s ?_
    split
    · next hz =>
      subst hz
      exact .renamed hx hy
    · next hz =>
      refine .of_ne hz fun hzy => hfresh ?_
      exact List.mem_singleton.mpr hzy.symm
  | unary s op e ih => exact .unary s op (ih hfresh inner hx hy)
  | binary s op l r ihl ihr =>
    simp only [identifiers, List.mem_append, not_or] at hfresh
    exact .binary s op (ihl hfresh.1 inner hx hy) (ihr hfresh.2 inner hx hy)
  | ifThen s c t ihc iht =>
    simp only [identifiers, List.mem_append, not_or] at hfresh
    exact .ifThen s (ihc hfresh.1 inner hx hy) (iht hfresh.2 inner hx hy)
  | ifElse s c t e ihc iht ihe =>
    simp only [identifiers, List.mem_append, not_or] at hfresh
    exact .ifElse s (ihc hfresh.1.1 inner hx hy) (iht hfresh.1.2 inner hx hy)
      (ihe hfresh.2 inner hx hy)
  | lambda s param body ih =>
    obtain ⟨hparam, hbody⟩ := not_or.mp (mt List.mem_cons.mpr hfresh)
    refine .lambda s ?_
    split
    · next hhides =>
      -- an inner parameter hides `x`, so there is nothing to rename in the body
      have hx' : x ∈ param :: inner := by simp [hhides]
      refine .of_identifiers fun z hz => .hidden hx' ?_
      rintro rfl
      exact hbody hz
    · next hother =>
      have hx' : x ∉ param :: inner := List.not_mem_cons_of_ne_of_not_mem (Ne.symm hother) hx
      have hy' : y ∉ param :: inner := List.not_mem_cons_of_ne_of_not_mem hparam hy
      exact ih hbody (param :: inner) hx' hy'
  | apply s f a ihf iha =>
    simp only [identifiers, List.mem_append, not_or] at hfresh
    exact .apply s (ihf hfresh.1 inner hx hy) (iha hfresh.2 inner hx hy)

/-- A parameter renamed to a name that does not occur gives an expression that is alike. -/
theorem Expr.RenamesParam.alike {e e' : Expr} (h : e.RenamesParam y e') (hfresh : y ∉ e.identifiers)
    (ps : List String) : e.Alike ps ps e' := by
  induction h generalizing ps with
  | here s x body =>
    have hbody : y ∉ body.identifiers := fun hy => hfresh (List.mem_cons_of_mem _ hy)
    exact .lambda s (Expr.alike_renameReads hbody [] List.not_mem_nil List.not_mem_nil)
  | operand s op _ ih => exact .unary s op (ih hfresh ps)
  | left s op r _ ih =>
    simp only [identifiers, List.mem_append, not_or] at hfresh
    exact .binary s op (ih hfresh.1 ps) (.refl ps r)
  | right s op l _ ih =>
    simp only [identifiers, List.mem_append, not_or] at hfresh
    exact .binary s op (.refl ps l) (ih hfresh.2 ps)
  | shortCondition s t _ ih =>
    simp only [identifiers, List.mem_append, not_or] at hfresh
    exact .ifThen s (ih hfresh.1 ps) (.refl ps t)
  | shortConsequence s c _ ih =>
    simp only [identifiers, List.mem_append, not_or] at hfresh
    exact .ifThen s (.refl ps c) (ih hfresh.2 ps)
  | condition s t e _ ih =>
    simp only [identifiers, List.mem_append, not_or] at hfresh
    exact .ifElse s (ih hfresh.1.1 ps) (.refl ps t) (.refl ps e)
  | consequence s c e _ ih =>
    simp only [identifiers, List.mem_append, not_or] at hfresh
    exact .ifElse s (.refl ps c) (ih hfresh.1.2 ps) (.refl ps e)
  | alternative s c t _ ih =>
    simp only [identifiers, List.mem_append, not_or] at hfresh
    exact .ifElse s (.refl ps c) (.refl ps t) (ih hfresh.2 ps)
  | body s param _ ih =>
    exact .lambda s (ih (fun hy => hfresh (List.mem_cons_of_mem _ hy)) (param :: ps))
  | function s a _ ih =>
    simp only [identifiers, List.mem_append, not_or] at hfresh
    exact .apply s (ih hfresh.1 ps) (.refl ps a)
  | argument s f _ ih =>
    simp only [identifiers, List.mem_append, not_or] at hfresh
    exact .apply s (.refl ps f) (ih hfresh.2 ps)

/-- A parameter renamed to a name that does not occur gives a statement that is alike. -/
theorem Stmt.RenamesParam.alike {stmt stmt' : Stmt} (h : stmt.RenamesParam y stmt')
    (hfresh : y ∉ stmt.identifiers) : stmt.Alike stmt' := by
  cases h with
  | define s x h => exact .define s x (h.alike (fun hy => hfresh (List.mem_cons_of_mem _ hy)) [])
  | puts s h => exact .puts s (h.alike hfresh [])
  | expression h => exact .expression (h.alike hfresh [])

/-- **A program in which one parameter has been renamed is alike the program**, if the new name
occurs nowhere in it. -/
theorem Program.RenamesParam.alike {program program' : Program}
    (h : Program.RenamesParam y program program') (hfresh : y ∉ Program.identifiers program) :
    Program.Alike program program' := by
  induction h with
  | head stmts h =>
    simp only [Program.identifiers, List.flatMap_cons, List.mem_append, not_or] at hfresh
    exact .cons (h.alike hfresh.1) (Program.Alike.refl stmts)
  | tail stmt _ ih =>
    simp only [Program.identifiers, List.flatMap_cons, List.mem_append, not_or] at hfresh
    exact .cons (.refl stmt) (ih hfresh.2)

end fresh

end Duet
