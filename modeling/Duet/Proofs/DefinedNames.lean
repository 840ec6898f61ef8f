import Duet.Proofs.Emission
import Mathlib.Data.List.Induction

/-!
# Definitions and the slots they take

Every definition of a program takes one slot, in order, so the table of globals is known from the
list of the names that have been defined: it is `SlotTable.ofNames`. A name stands for the last
place at which it occurs in that list (`slot?_ofNames_eq_some_iff`).

The later files describe places in a program by the names that are defined there, and no longer
by tables.
-/

namespace Duet

/-- The name that a statement defines, if it is a definition. -/
def Stmt.definedName? : Stmt → Option String
  | .define _ x _ => some x
  | .puts .. | .expression _ => none

/-- The names that a program defines, in order. A name that is defined again occurs again. -/
def Program.definedNames (program : Program) : List String :=
  program.filterMap Stmt.definedName?

/-- The names that the value of a statement sees, behind definitions of the given names: a function
that is being defined sees its own name. -/
def Stmt.visibleNames (names : List String) : Stmt → List String
  | .define _ x value => if value.isLambda then names ++ [x] else names
  | .puts .. | .expression _ => names

/-- The names defined behind a statement, from those defined in front of it. -/
def Stmt.namesAfter (names : List String) (stmt : Stmt) : List String :=
  names ++ stmt.definedName?.toList

/-- A program defines the name of its first statement and those of the rest. -/
theorem Program.definedNames_cons (stmt : Stmt) (stmts : Program) :
    Program.definedNames (stmt :: stmts) = stmt.definedName?.toList ++ Program.definedNames stmts := by
  unfold Program.definedNames
  rw [List.filterMap_cons]
  cases stmt.definedName? <;> rfl

/-- The value of a statement sees no more than what is defined behind the statement. -/
theorem Stmt.visibleNames_prefix (names : List String) (stmt : Stmt) :
    stmt.visibleNames names <+: stmt.namesAfter names := by
  unfold namesAfter
  cases stmt with
  | define s x value =>
    by_cases hl : value.isLambda = true
    · rw [visibleNames, if_pos hl]
      exact List.prefix_refl _
    · rw [visibleNames, if_neg hl]
      exact List.prefix_append _ _
  | puts s value => exact List.prefix_append _ _
  | expression value => exact List.prefix_append _ _

/-- A bound on the number of slots holds behind a statement if there is a slot for the name it
defines. -/
theorem Stmt.length_namesAfter_le {names : List String} {stmt : Stmt} {n : Nat}
    (hnames : names.length ≤ n) (hslot : stmt.definedName? ≠ none → names.length < n) :
    (stmt.namesAfter names).length ≤ n := by
  unfold namesAfter
  rw [List.length_append]
  cases hname : stmt.definedName? with
  | none => exact hnames
  | some x => exact hslot (by simp [hname])

/-- Statements in front of others define their names first. -/
theorem Program.append_definedNames_cons (names : List String) (stmt : Stmt) (stmts : Program) :
    names ++ Program.definedNames (stmt :: stmts)
      = stmt.namesAfter names ++ Program.definedNames stmts := by
  rw [Program.definedNames_cons, Stmt.namesAfter, List.append_assoc]

namespace SlotTable

/-- The table after definitions of the given names. -/
def ofNames (names : List String) : SlotTable :=
  names.foldl SlotTable.define .empty

/-- One more name is one more definition. -/
theorem ofNames_concat (names : List String) (x : String) :
    ofNames (names ++ [x]) = (ofNames names).define x := by
  rw [ofNames, List.foldl_append]
  rfl

@[simp] theorem count_ofNames (names : List String) : (ofNames names).count = names.length := by
  induction names using List.reverseRecOn with
  | nil => rfl
  | append_singleton names x ih =>
    rw [ofNames_concat, List.length_append, ← ih]
    rfl

/-- A name stands for the last place at which it occurs. -/
theorem slot?_ofNames_eq_some_iff {names : List String} {x : String} {i : Nat} :
    (ofNames names).slot? x = some i ↔
      names[i]? = some x ∧ ∀ j, i < j → names[j]? ≠ some x := by
  induction names using List.reverseRecOn with
  | nil => simp [ofNames, empty, slot?]
  | append_singleton names y ih =>
    have hlast : (names ++ [y])[names.length]? = some y := List.getElem?_concat_length
    have hbeyond (j : Nat) (hj : names.length < j) : (names ++ [y])[j]? = none := by
      rw [List.getElem?_eq_none_iff, List.length_append, List.length_singleton]
      omega
    rw [ofNames_concat]
    -- the name that was defined last has the last slot; for all others nothing changes
    by_cases hxy : x = y
    · subst hxy
      rw [slot?_define_self, count_ofNames, Option.some.injEq]
      constructor
      · rintro rfl
        refine ⟨hlast, fun j hj => ?_⟩
        rw [hbeyond j hj]
        exact Option.some_ne_none x |>.symm
      · rintro ⟨hi, hafter⟩
        by_contra hne
        by_cases hlt : i < names.length
        · exact hafter names.length hlt hlast
        · rw [hbeyond i (by omega)] at hi
          cases hi
    · rw [slot?_define_of_ne _ hxy, ih]
      have hsame (j : Nat) : (names ++ [y])[j]? = some x ↔ names[j]? = some x := by
        by_cases hlt : j < names.length
        · rw [List.getElem?_append_left hlt]
        · rw [List.getElem?_append_right (by omega), List.getElem?_eq_none (by omega : _ ≤ j)]
          constructor
          · intro h
            have hy : y = x := by
              have := List.mem_of_getElem? h
              simpa [eq_comm] using this
            exact absurd hy.symm hxy
          · intro h
            cases h
      simp only [ne_eq, hsame]

/-- The names that have a slot are those that have been defined. -/
theorem exists_slot?_ofNames_iff {names : List String} {x : String} :
    (∃ i, (ofNames names).slot? x = some i) ↔ x ∈ names := by
  constructor
  · rintro ⟨i, hi⟩
    exact List.mem_of_getElem? (slot?_ofNames_eq_some_iff.mp hi).1
  · intro hx
    induction names using List.reverseRecOn with
    | nil => cases hx
    | append_singleton names y ih =>
      rw [ofNames_concat]
      by_cases hxy : x = y
      · subst hxy
        exact ⟨_, slot?_define_self _ x⟩
      · rw [slot?_define_of_ne _ hxy]
        exact ih (by simpa [hxy] using hx)

end SlotTable

namespace Scope

/-- The scope at the top level, behind definitions of the given names. -/
def ofNames (names : List String) : Scope :=
  .global (.ofNames names)

/-- What the value of a statement is compiled in. -/
theorem visible_ofNames (names : List String) (stmt : Stmt) :
    stmt.visible (ofNames names) = ofNames (stmt.visibleNames names) := by
  cases stmt with
  | define s x value =>
    by_cases hl : value.isLambda = true
    · rw [Stmt.visible, Stmt.visibleNames, if_pos hl, if_pos hl, ofNames, ofNames,
        SlotTable.ofNames_concat]
      rfl
    · rw [Stmt.visible, Stmt.visibleNames, if_neg hl, if_neg hl]
  | puts s value => rfl
  | expression value => rfl

/-- Scopes and lists of names go along with each other from statement to statement. -/
theorem scopeAfter_ofNames (names : List String) (stmt : Stmt) :
    stmt.scopeAfter (ofNames names) = ofNames (stmt.namesAfter names) := by
  cases stmt with
  | define s x value =>
    rw [Stmt.scopeAfter, Stmt.namesAfter, Stmt.definedName?, Option.toList_some, ofNames, ofNames,
      SlotTable.ofNames_concat]
    rfl
  | puts s value => rw [Stmt.namesAfter, Stmt.definedName?, Option.toList_none, List.append_nil]; rfl
  | expression value =>
    rw [Stmt.namesAfter, Stmt.definedName?, Option.toList_none, List.append_nil]; rfl

end Scope

end Duet
