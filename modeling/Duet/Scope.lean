/-!
# Scopes: which slot a name stands for

While a program is compiled, every definition takes a fresh slot of the innermost table, also
when the name is already there; the earlier slot keeps its number but is no longer found by
name. The outermost table hands out slots for globals, each enclosed one hands out slots of a
function's frame.

A name is looked up from the innermost table outward. What is found in an enclosed table that
is not the innermost one belongs to another function's frame and is out of reach at run time;
the result says so.
-/

namespace Duet

/-- The definitions of one level. -/
structure SlotTable where
  /-- The names with their slots, the latest definition first. -/
  slots : List (String × Nat)
  /-- The number of definitions made so far. -/
  count : Nat
deriving DecidableEq, Repr

namespace SlotTable

/-- The table without definitions. -/
def empty : SlotTable := ⟨[], 0⟩

/-- The table with one more definition, in the next slot. -/
def define (t : SlotTable) (name : String) : SlotTable :=
  ⟨(name, t.count) :: t.slots, t.count + 1⟩

/-- The slot of the latest definition of a name. -/
def slot? (t : SlotTable) (name : String) : Option Nat :=
  t.slots.lookup name

/-- A name stands for the slot of its latest definition. -/
@[simp] theorem slot?_define_self (t : SlotTable) (name : String) :
    (t.define name).slot? name = some t.count := by
  simp [define, slot?]

/-- Defining a name leaves the slots of the others alone. -/
@[simp] theorem slot?_define_of_ne (t : SlotTable) {x name : String} (h : x ≠ name) :
    (t.define name).slot? x = t.slot? x := by
  simp [define, slot?, List.lookup_cons, beq_false_of_ne h]

end SlotTable

/-- Where a name is found. -/
inductive Reach where
  /-- Among the globals. -/
  | global
  /-- In the frame of the function itself. -/
  | local_
  /-- In the frame of an enclosing function. -/
  | free
deriving DecidableEq, Repr

/-- A name's slot and where it is found. -/
structure Binding where
  reach : Reach
  index : Nat
deriving DecidableEq, Repr

/-- Nested tables: the globals, or a function's table inside a scope. -/
inductive Scope where
  | global (table : SlotTable)
  | enclosed (table : SlotTable) (outer : Scope)
deriving DecidableEq, Repr

namespace Scope

/-- The scope without definitions. -/
def empty : Scope := .global .empty

/-- The innermost table. -/
def table : Scope → SlotTable
  | .global t | .enclosed t _ => t

/-- The number of definitions in the innermost table. -/
def count (s : Scope) : Nat :=
  s.table.count

/-- Opens a table inside the scope. -/
def enclose (s : Scope) : Scope :=
  .enclosed .empty s

/-- Gives up the innermost table; nothing at the outermost level. -/
def leave? : Scope → Option Scope
  | .global _ => none
  | .enclosed _ outer => some outer

/-- The scope with one more definition in its innermost table. -/
def define (name : String) : Scope → Scope
  | .global t => .global (t.define name)
  | .enclosed t outer => .enclosed (t.define name) outer

/-- The binding that the next definition will have. -/
def next : Scope → Binding
  | .global t => ⟨.global, t.count⟩
  | .enclosed t _ => ⟨.local_, t.count⟩

/-- A binding as it is seen from one level further in. -/
def fromInside (b : Binding) : Binding :=
  match b.reach with
  | .global => b
  | .local_ | .free => { b with reach := .free }

/-- Looks a name up. -/
def resolve? (name : String) : Scope → Option Binding
  | .global t => (t.slot? name).map (⟨.global, ·⟩)
  | .enclosed t outer =>
    match t.slot? name with
    | some i => some ⟨.local_, i⟩
    | none => (outer.resolve? name).map fromInside

/-- Leaving right after entering gives the scope back. -/
@[simp] theorem leave?_enclose (s : Scope) : s.enclose.leave? = some s := rfl

/-- A definition in an enclosed table leaves the scope around it alone. -/
@[simp] theorem leave?_define (s : Scope) (name : String) :
    (s.define name).leave? = s.leave? := by
  cases s <;> rfl

/-- Every definition takes one slot. -/
@[simp] theorem count_define (s : Scope) (name : String) :
    (s.define name).count = s.count + 1 := by
  cases s <;> rfl

/-- A name that has just been defined has the binding that was foretold. -/
@[simp] theorem resolve?_define_self (s : Scope) (name : String) :
    (s.define name).resolve? name = some s.next := by
  cases s <;> simp [define, resolve?, next]

/-- Defining a name leaves the bindings of the others alone. -/
@[simp] theorem resolve?_define_of_ne (s : Scope) {x name : String} (h : x ≠ name) :
    (s.define name).resolve? x = s.resolve? x := by
  cases s <;> simp [define, resolve?, h]

end Scope

end Duet
