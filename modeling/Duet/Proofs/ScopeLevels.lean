import Duet.Proofs.DefinedNames

/-!
# A scope is a stack of lists of definitions

A scope keeps a slot for each name that can be found. What it answers can be said with less: with
the names that were defined at each level, in order. `Levels` is that, and knows nothing of slots or
of where a name is found.

* `scope_step?`, `scope_after?`: an operation on levels is the same operation on the scope that they
  stand for, and so is a run of operations. Both give up at the same place, where the outermost
  level would be left.
* `resolve?_scope_iff`: a name is found at the innermost level that has it, in the slot of its
  latest definition there. The lookup marks a slot anew at each level it comes out of, so the mark is
  settled by induction on the levels further out.
* `ScopeOp.Balanced.after?`: operations that leave what they enclose do to the scope they start from
  what the definitions among them at its own level do, and no more.
-/

namespace Duet

/-- What can be done to a scope. -/
inductive ScopeOp where
  | define (name : String)
  | resolve (name : String)
  | enclose
  | leave
deriving DecidableEq, Repr

namespace Scope

/-- The scope after an operation. The outermost level cannot be left. -/
def step? (s : Scope) : ScopeOp → Option Scope
  | .define x => some (s.define x)
  | .resolve _ => some s
  | .enclose => some s.enclose
  | .leave => s.leave?

/-- What an operation answers: the slot that a definition gets, or the slot that a name stands for. -/
def answer (s : Scope) : ScopeOp → Option Binding
  | .define _ => some s.next
  | .resolve x => s.resolve? x
  | .enclose | .leave => none

/-- The scope after several operations. -/
def after? (s : Scope) (ops : List ScopeOp) : Option Scope :=
  ops.foldlM step? s

end Scope

/-- The names defined at each level, the oldest first. -/
structure Levels where
  innermost : List String
  /-- The levels around it, from the inside out. -/
  outer : List (List String)
deriving DecidableEq, Repr

namespace Levels

/-- One level without definitions. -/
def start : Levels := ⟨[], []⟩

/-- All levels, from the inside out. -/
def all (L : Levels) : List (List String) := L.innermost :: L.outer

/-- The levels after an operation. -/
def step? (L : Levels) : ScopeOp → Option Levels
  | .define x => some ⟨L.innermost ++ [x], L.outer⟩
  | .resolve _ => some L
  | .enclose => some ⟨[], L.innermost :: L.outer⟩
  | .leave =>
    match L.outer with
    | [] => none
    | names :: outer => some ⟨names, outer⟩

/-- The levels after several operations. -/
def after? (L : Levels) (ops : List ScopeOp) : Option Levels :=
  ops.foldlM step? L

/-- How far away a level is that has the levels `inner` inside it and the levels `outer` around it. -/
def reach : (inner outer : List (List String)) → Reach
  | _, [] => .global
  | [], _ :: _ => .local_
  | _ :: _, _ :: _ => .free

/-- The name stands for its latest definition at the innermost level that has one. -/
def Resolves (L : Levels) (x : String) (b : Binding) : Prop :=
  ∃ inner names outer, L.all = inner ++ names :: outer ∧ (∀ t ∈ inner, x ∉ t) ∧
    names[b.index]? = some x ∧ (∀ j, b.index < j → names[j]? ≠ some x) ∧
    b.reach = reach inner outer

/-! ## The scope of levels -/

/-- The scope with the given names at its levels. -/
def scopeOf (names : List String) : List (List String) → Scope
  | [] => .global (.ofNames names)
  | names' :: outer => .enclosed (.ofNames names) (scopeOf names' outer)

/-- The scope that levels stand for. -/
def scope (L : Levels) : Scope := scopeOf L.innermost L.outer

/-- One more name at the inner level is one more definition in the scope. -/
theorem scopeOf_concat (names : List String) (x : String) (outer : List (List String)) :
    scopeOf (names ++ [x]) outer = (scopeOf names outer).define x := by
  cases outer with
  | nil => rw [scopeOf, SlotTable.ofNames_concat]; rfl
  | cons names' outer => rw [scopeOf, SlotTable.ofNames_concat]; rfl

/-- An operation on levels is the operation on the scope that they stand for. -/
theorem scope_step? (L : Levels) (op : ScopeOp) :
    L.scope.step? op = (L.step? op).map scope := by
  obtain ⟨names, outer⟩ := L
  cases op with
  | define x => exact congrArg some (scopeOf_concat names x outer).symm
  | resolve x => rfl
  | enclose => rfl
  | leave => cases outer <;> rfl

/-- Operations on levels are the operations on the scope that they stand for. -/
theorem scope_after? (L : Levels) (ops : List ScopeOp) :
    L.scope.after? ops = (L.after? ops).map scope := by
  induction ops generalizing L with
  | nil => rfl
  | cons op ops ih =>
    unfold Scope.after? after?
    rw [List.foldlM_cons, List.foldlM_cons, scope_step?]
    cases L.step? op with
    | none => rfl
    | some L' => exact ih L'

/-- A definition gets the slot behind those of the definitions before it at its level. -/
theorem next_scope (L : Levels) : L.scope.next = ⟨reach [] L.outer, L.innermost.length⟩ := by
  obtain ⟨names, outer⟩ := L
  cases outer with
  | nil => exact congrArg (Binding.mk .global) (SlotTable.count_ofNames names)
  | cons names' outer => exact congrArg (Binding.mk .local_) (SlotTable.count_ofNames names)

/-! ## Looking names up -/

/-- A name of the innermost level is found there and nowhere else. -/
theorem resolves_iff_of_mem {names : List String} {outer : List (List String)} {x : String}
    (hx : x ∈ names) (b : Binding) :
    Resolves ⟨names, outer⟩ x b ↔
      (SlotTable.ofNames names).slot? x = some b.index ∧ b.reach = reach [] outer := by
  rw [SlotTable.slot?_ofNames_eq_some_iff]
  constructor
  · rintro ⟨inner, names', outer', hall, hinner, hindex, hlatest, hreach⟩
    cases inner with
    | nil =>
      obtain ⟨rfl, rfl⟩ := List.cons.inj hall
      exact ⟨⟨hindex, hlatest⟩, hreach⟩
    | cons t inner =>
      obtain ⟨rfl, -⟩ := List.cons.inj hall
      exact absurd hx (hinner names List.mem_cons_self)
  · rintro ⟨⟨hindex, hlatest⟩, hreach⟩
    exact ⟨[], names, outer, rfl, List.forall_mem_nil _, hindex, hlatest, hreach⟩

/-- A name that is not defined at the only level stands for nothing. -/
theorem not_resolves_of_notMem {names : List String} {x : String} (hx : x ∉ names) (b : Binding) :
    ¬Resolves ⟨names, []⟩ x b := by
  rintro ⟨inner, names', outer, hall, -, hindex, -⟩
  obtain ⟨-, hnil⟩ | ⟨_, -, hnil⟩ := List.cons_eq_append_iff.mp hall
  · obtain ⟨rfl, -⟩ := List.cons.inj hnil
    exact hx (List.mem_of_getElem? hindex)
  · exact absurd hnil (by simp)

/-- A binding found further out is one of the same slot, seen from inside. -/
theorem reach_cons (names : List String) (inner outer : List (List String)) (i : Nat) :
    Scope.fromInside ⟨reach inner outer, i⟩ = ⟨reach (names :: inner) outer, i⟩ := by
  cases outer with
  | nil => cases inner <;> rfl
  | cons t outer => cases inner <;> rfl

/-- A name that the innermost level does not have is looked up from the level around it. -/
theorem resolves_iff_of_notMem {names names' : List String} {outer : List (List String)}
    {x : String} (hx : x ∉ names) (b : Binding) :
    Resolves ⟨names, names' :: outer⟩ x b ↔
      ∃ b', Resolves ⟨names', outer⟩ x b' ∧ Scope.fromInside b' = b := by
  constructor
  · rintro ⟨inner, found, outer', hall, hinner, hindex, hlatest, hreach⟩
    cases inner with
    | nil =>
      obtain ⟨rfl, -⟩ := List.cons.inj hall
      exact absurd (List.mem_of_getElem? hindex) hx
    | cons t inner =>
      obtain ⟨rfl, htail⟩ := List.cons.inj hall
      refine ⟨⟨reach inner outer', b.index⟩, ⟨inner, found, outer', htail,
        fun t ht => hinner t (List.mem_cons_of_mem _ ht), hindex, hlatest, rfl⟩, ?_⟩
      rw [reach_cons names, ← hreach]
  · rintro ⟨⟨_, i⟩, ⟨inner, found, outer', hall, hinner, hindex, hlatest, rfl⟩, rfl⟩
    rw [reach_cons names]
    refine ⟨names :: inner, found, outer', congrArg (names :: ·) hall, ?_, hindex, hlatest, rfl⟩
    exact List.forall_mem_cons.mpr ⟨hx, hinner⟩

/-- A name that is not defined has no slot. -/
theorem slot?_eq_none_of_notMem {names : List String} {x : String} (hx : x ∉ names) :
    (SlotTable.ofNames names).slot? x = none := by
  refine Option.eq_none_iff_forall_ne_some.mpr fun i hi => ?_
  exact hx (SlotTable.exists_slot?_ofNames_iff.mp ⟨i, hi⟩)

/-- A name that is defined at the inner level stands for its latest definition there. -/
theorem resolve?_scopeOf_iff_of_mem {names : List String} {x : String} (hx : x ∈ names)
    (outer : List (List String)) (b : Binding) :
    (scopeOf names outer).resolve? x = some b ↔ Resolves ⟨names, outer⟩ x b := by
  obtain ⟨i, hi⟩ := SlotTable.exists_slot?_ofNames_iff.mpr hx
  have hfound : (scopeOf names outer).resolve? x = some ⟨reach [] outer, i⟩ := by
    cases outer with
    | nil => rw [scopeOf, Scope.resolve?, hi]; rfl
    | cons names' outer => rw [scopeOf, Scope.resolve?, hi]; rfl
  rw [resolves_iff_of_mem hx, hfound, hi, Option.some_inj, Option.some_inj]
  constructor
  · rintro rfl
    exact ⟨rfl, rfl⟩
  · rintro ⟨rfl, hreach⟩
    exact congrArg (Binding.mk · b.index) hreach.symm

/-- What a scope finds for a name is the latest definition at the innermost level that has one. -/
theorem resolve?_scope_iff (L : Levels) (x : String) (b : Binding) :
    L.scope.resolve? x = some b ↔ L.Resolves x b := by
  obtain ⟨names, outer⟩ := L
  show (scopeOf names outer).resolve? x = some b ↔ _
  induction outer generalizing names b with
  | nil =>
    by_cases hx : x ∈ names
    · exact resolve?_scopeOf_iff_of_mem hx [] b
    · rw [scopeOf, Scope.resolve?, slot?_eq_none_of_notMem hx]
      exact iff_of_false (by simp) (not_resolves_of_notMem hx b)
  | cons names' outer ih =>
    by_cases hx : x ∈ names
    · exact resolve?_scopeOf_iff_of_mem hx (names' :: outer) b
    · rw [resolves_iff_of_notMem hx, scopeOf, Scope.resolve?, slot?_eq_none_of_notMem hx,
        Option.map_eq_some_iff]
      simp only [ih]

end Levels

/-! ## Balanced operations -/

/-- Every level that is entered is left again, and no other is. -/
inductive ScopeOp.Balanced : List ScopeOp → Prop
  | nil : Balanced []
  | define (x : String) {ops : List ScopeOp} : Balanced ops → Balanced (.define x :: ops)
  | resolve (x : String) {ops : List ScopeOp} : Balanced ops → Balanced (.resolve x :: ops)
  | block {inside ops : List ScopeOp} : Balanced inside → Balanced ops →
      Balanced (.enclose :: inside ++ .leave :: ops)

namespace Scope

/-- The scope with several names defined one after the other. -/
def defineAll (s : Scope) (names : List String) : Scope :=
  names.foldl (fun s x => s.define x) s

/-- Definitions do not change the level around. -/
theorem leave?_defineAll (s : Scope) (names : List String) :
    (s.defineAll names).leave? = s.leave? := by
  induction names generalizing s with
  | nil => rfl
  | cons x names ih => exact (ih (s.define x)).trans (s.leave?_define x)

/-- Every definition takes one slot. -/
theorem count_defineAll (s : Scope) (names : List String) :
    (s.defineAll names).count = s.count + names.length := by
  induction names generalizing s with
  | nil => rfl
  | cons x names ih =>
    show ((s.define x).defineAll names).count = _
    rw [ih, count_define, List.length_cons, Nat.add_right_comm, Nat.add_assoc]

/-- The next definition gets the number of those that are there. -/
theorem index_next (s : Scope) : s.next.index = s.count := by
  cases s <;> rfl

/-- Operations in two parts are done one part after the other. -/
theorem after?_append (s : Scope) (ops ops' : List ScopeOp) :
    s.after? (ops ++ ops') = (s.after? ops).bind (·.after? ops') :=
  List.foldlM_append

end Scope

/-- Balanced operations define some names at the level they start from, and change nothing else. -/
theorem ScopeOp.Balanced.after? {ops : List ScopeOp} (h : ScopeOp.Balanced ops) (s : Scope) :
    ∃ names, s.after? ops = some (s.defineAll names) := by
  induction h generalizing s with
  | nil => exact ⟨[], rfl⟩
  | define x _ ih =>
    obtain ⟨names, hnames⟩ := ih (s.define x)
    exact ⟨x :: names, hnames⟩
  | resolve x _ ih => exact ih s
  | @block inside ops _ _ ihinside ihops =>
    obtain ⟨names, hnames⟩ := ihops s
    obtain ⟨hidden, hhidden⟩ := ihinside s.enclose
    refine ⟨names, ?_⟩
    calc s.after? (.enclose :: inside ++ .leave :: ops)
      _ = s.enclose.after? (inside ++ .leave :: ops) := rfl
      _ = (s.enclose.defineAll hidden).after? (.leave :: ops) := by
        rw [Scope.after?_append, hhidden, Option.bind_some]
      _ = s.after? ops := by
        rw [Scope.after?, List.foldlM_cons, Scope.step?, Scope.leave?_defineAll,
          Scope.leave?_enclose]
        rfl
      _ = some (s.defineAll names) := hnames

/-- **A scope refines a stack of lists of definitions.** Take any operations on a scope without
definitions. They can be done exactly if they can be done on levels. The scope then answers as the
levels say: a definition gets as its slot the number of definitions made before at its level, and a
name stands for its latest definition at the innermost level that has one. A definition that follows
at the same level, after whatever balanced operations, gets a larger slot. Entering a level, doing
balanced operations and leaving gives the scope back. -/
theorem scope_refines_levels (ops : List ScopeOp) :
    (Scope.empty.after? ops).isSome = (Levels.start.after? ops).isSome ∧
    ∀ s L, Scope.empty.after? ops = some s → Levels.start.after? ops = some L →
      (∀ x, s.answer (.define x) = some ⟨Levels.reach [] L.outer, L.innermost.length⟩) ∧
      (∀ x b, s.answer (.resolve x) = some b ↔ L.Resolves x b) ∧
      (∀ x ops', ScopeOp.Balanced ops' →
        ∃ s', (s.define x).after? ops' = some s' ∧ s.next.index < s'.next.index) ∧
      (∀ ops', ScopeOp.Balanced ops' →
        ∃ s', s.enclose.after? ops' = some s' ∧ s'.leave? = some s) := by
  have hafter : Scope.empty.after? ops = (Levels.start.after? ops).map Levels.scope :=
    Levels.start.scope_after? ops
  refine ⟨by rw [hafter, Option.isSome_map], ?_⟩
  intro s L hs hL
  rw [hafter, hL, Option.map_some, Option.some_inj] at hs
  refine ⟨fun x => ?_, fun x b => ?_, fun x ops' hops' => ?_, fun ops' hops' => ?_⟩
  · rw [← hs, Scope.answer, L.next_scope]
  · rw [← hs]
    exact L.resolve?_scope_iff x b
  · obtain ⟨names, hnames⟩ := hops'.after? (s.define x)
    refine ⟨_, hnames, ?_⟩
    rw [Scope.index_next, Scope.index_next, Scope.count_defineAll, Scope.count_define]
    omega
  · obtain ⟨names, hnames⟩ := hops'.after? s.enclose
    exact ⟨_, hnames, by rw [Scope.leave?_defineAll, Scope.leave?_enclose]⟩

/-- A name is defined at three levels, and twice at the innermost one; another in the middle. -/
def threeLevels : List ScopeOp :=
  [.define "x", .enclose, .define "x", .define "y", .enclose, .define "x", .enclose, .define "y",
    .leave, .define "x"]

/-- At the innermost of `threeLevels` a name is its own latest definition, the other one is free,
and a level that is entered and left changes nothing. -/
theorem scope_refines_levels_threeLevels :
    ∃ s, Scope.empty.after? threeLevels = some s ∧
      s.answer (.define "z") = some ⟨.local_, 2⟩ ∧ s.answer (.resolve "x") = some ⟨.local_, 1⟩ ∧
      s.answer (.resolve "y") = some ⟨.free, 1⟩ ∧
      ∃ s', s.enclose.after? [.define "x", .enclose, .resolve "y", .leave] = some s' ∧
        s'.leave? = some s := by
  obtain ⟨-, hanswers⟩ := scope_refines_levels threeLevels
  obtain ⟨s, hs⟩ : ∃ s, Scope.empty.after? threeLevels = some s := ⟨_, rfl⟩
  obtain ⟨hdefine, hresolve, -, hleave⟩ := hanswers s ⟨["x", "x"], [["x", "y"], ["x"]]⟩ hs rfl
  refine ⟨s, hs, hdefine "z", (hresolve "x" _).mpr ?_, (hresolve "y" _).mpr ?_, ?_⟩
  · refine ⟨[], ["x", "x"], [["x", "y"], ["x"]], rfl, List.forall_mem_nil _, rfl, fun j hj => ?_,
      rfl⟩
    rw [List.getElem?_eq_none hj]
    exact Option.some_ne_none _ |>.symm
  · refine ⟨[["x", "x"]], ["x", "y"], [["x"]], rfl, by decide, rfl, fun j hj => ?_, rfl⟩
    rw [List.getElem?_eq_none hj]
    exact Option.some_ne_none _ |>.symm
  · exact hleave _ (.define "x" (.block (.resolve "y" .nil) .nil))

end Duet
