import Duet.Proofs.PrintRoundTrip

/-!
# Printed texts are normal forms

Printing an expression, reading the text and printing what was read gives the same text again:
the printed text is a fixed point of reading and printing, whether or not the tree is. The tree is
one exactly if no `if` with an alternative has a consequence that reaches an `if` without one.

* `Expr.Reaches`: what stands at the right end of an expression when it is printed, found by
  going from a function to its body, from an application to its argument, and from a conditional
  to its alternative.
* `Expr.settled_iff`: the recursive condition `Settled`, as a statement on the conditionals inside
  an expression and on what their consequences reach.
* `print_reread`: the statement on texts and the statement on trees, for every expression of every
  source.
-/

namespace Duet

namespace Expr

/-! ## The right end of an expression -/

/-- The second expression is reached from the first by following the bodies of functions, the
arguments of applications and the alternatives of conditionals. -/
inductive Reaches : Expr → Expr → Prop
  | refl (e : Expr) : Reaches e e
  | alternative {s : Span} {c t a e : Expr} : Reaches a e → Reaches (.ifElse s c t a) e
  | body {s : Span} {param : String} {b e : Expr} : Reaches b e → Reaches (.lambda s param b) e
  | argument {s : Span} {f a e : Expr} : Reaches a e → Reaches (.apply s f a) e

/-- An expression ends in a conditional without alternative if it reaches one. -/
theorem endsShort_of_reaches {e : Expr} {s : Span} {c t : Expr} (h : e.Reaches (.ifThen s c t)) :
    e.endsShort = true := by
  generalize hshort : Expr.ifThen s c t = u at h
  induction h with
  | refl e =>
    subst hshort
    rfl
  | alternative _ ih | body _ ih | argument _ ih => exact ih hshort

/-- An expression that ends in a conditional without alternative reaches one. -/
theorem exists_reaches_of_endsShort {e : Expr} (h : e.endsShort = true) :
    ∃ s c t, e.Reaches (.ifThen s c t) := by
  induction e with
  | ifThen s c t _ _ => exact ⟨s, c, t, .refl _⟩
  | ifElse s c t a _ _ ih =>
    obtain ⟨s', c', t', ha⟩ := ih h
    exact ⟨s', c', t', .alternative ha⟩
  | lambda s param b ih =>
    obtain ⟨s', c', t', hb⟩ := ih h
    exact ⟨s', c', t', .body hb⟩
  | apply s f a _ ih =>
    obtain ⟨s', c', t', ha⟩ := ih h
    exact ⟨s', c', t', .argument ha⟩
  | integer | text | boolean | nil | name | unary | binary => cases h

/-- An expression does not end in a conditional without alternative exactly if it reaches none. -/
theorem endsShort_eq_false_iff {e : Expr} :
    e.endsShort = false ↔ ∀ s c t, ¬e.Reaches (.ifThen s c t) := by
  rw [Bool.eq_false_iff]
  constructor
  · intro hshort s c t hreaches
    exact hshort (endsShort_of_reaches hreaches)
  · intro hnone hshort
    obtain ⟨s, c, t, hreaches⟩ := exists_reaches_of_endsShort hshort
    exact hnone s c t hreaches

/-! ## Settled expressions -/

/-- An expression is settled if every conditional with an alternative inside it has a consequence
that does not end in a conditional without one. -/
theorem settled_iff_forall_endsShort (e : Expr) :
    e.Settled ↔ ∀ s c t a, .ifElse s c t a ∈ e.subterms → t.endsShort = false := by
  induction e with
  | integer | text | boolean | nil | name => simp [Settled, subterms]
  | unary s op e ih => simp [Settled, subterms, ih]
  | lambda s param b ih => simp [Settled, subterms, ih]
  | binary s op l r ihl ihr | ifThen s l r ihl ihr | apply s l r ihl ihr =>
    simp only [Settled, subterms, ihl, ihr, List.mem_cons, List.mem_append, reduceCtorEq, false_or]
    constructor
    · rintro ⟨hl, hr⟩ s c t a (hmem | hmem)
      · exact hl s c t a hmem
      · exact hr s c t a hmem
    · intro h
      exact ⟨fun s c t a hmem => h s c t a (.inl hmem), fun s c t a hmem => h s c t a (.inr hmem)⟩
  | ifElse s c t a ihc iht iha =>
    simp only [Settled, subterms, ihc, iht, iha, List.mem_cons, List.mem_append, ifElse.injEq]
    constructor
    · rintro ⟨hshort, hc, ht, ha⟩ s' c' t' a' (⟨-, -, rfl, -⟩ | (hmem | hmem) | hmem)
      · exact hshort
      · exact hc s' c' t' a' hmem
      · exact ht s' c' t' a' hmem
      · exact ha s' c' t' a' hmem
    · intro h
      refine ⟨h s c t a (.inl ⟨rfl, rfl, rfl, rfl⟩), ?_, ?_, ?_⟩
      · exact fun s' c' t' a' hmem => h s' c' t' a' (.inr (.inl (.inl hmem)))
      · exact fun s' c' t' a' hmem => h s' c' t' a' (.inr (.inl (.inr hmem)))
      · exact fun s' c' t' a' hmem => h s' c' t' a' (.inr (.inr hmem))

/-- An expression is settled exactly if no `if` with an alternative inside it has a consequence
that reaches an `if` without one. -/
theorem settled_iff (e : Expr) :
    e.Settled ↔ ∀ s c t a, .ifElse s c t a ∈ e.subterms →
      ∀ s' c' t', ¬t.Reaches (.ifThen s' c' t') := by
  rw [settled_iff_forall_endsShort]
  simp only [endsShort_eq_false_iff]

/-! ## Texts and spans -/

/-- Where parentheses are needed does not depend on spans. -/
theorem wraps_bare (e : Expr) :
    e.bare.wrapsUnderUnary = e.wrapsUnderUnary ∧
    (∀ level onRight, e.bare.wrapsUnderBinary level onRight = e.wrapsUnderBinary level onRight) ∧
    e.bare.wrapsAsFunction = e.wrapsAsFunction := by
  cases e <;> exact ⟨rfl, fun _ _ => rfl, rfl⟩

/-- The text of an expression does not depend on its spans. -/
theorem print_bare (e : Expr) : e.bare.print = e.print := by
  induction e with
  | integer | text | boolean | nil | name => rfl
  | unary s op e ih =>
    have hwrap := (wraps_bare e).1
    simp only [bare] at ih hwrap
    simp only [bare, mapSpan, print, ih, hwrap]
  | binary s op l r ihl ihr =>
    have hleft := (wraps_bare l).2.1
    have hright := (wraps_bare r).2.1
    simp only [bare] at ihl ihr hleft hright
    simp only [bare, mapSpan, print, ihl, ihr, hleft, hright]
  | ifThen s c t ihc iht =>
    simp only [bare] at ihc iht
    simp only [bare, mapSpan, print, ihc, iht]
  | ifElse s c t e ihc iht ihe =>
    simp only [bare] at ihc iht ihe
    simp only [bare, mapSpan, print, ihc, iht, ihe]
  | lambda s param body ih =>
    simp only [bare] at ih
    simp only [bare, mapSpan, print, ih]
  | apply s f a ihf iha =>
    have hwrap := (wraps_bare f).2.2
    simp only [bare] at ihf iha hwrap
    simp only [bare, mapSpan, print, ihf, iha, hwrap]

/-- What is read from a printed text is printed as that text. -/
theorem print_eq_of_bare_eq_reattach {e e' : Expr} (h : e'.bare = e.reattach.bare) :
    e'.print = e.print :=
  calc e'.print
    _ = e'.bare.print := (print_bare e').symm
    _ = e.reattach.bare.print := by rw [h]
    _ = e.reattach.print := print_bare e.reattach
    _ = e.print := print_reattach e

end Expr

/-! ## The expressions of a source -/

/-- **Printed texts are normal forms.** The text printed for an expression of a source is read
again, without an error, as one expression statement. What is read is printed as the same text.
It is the expression itself, spans aside, exactly if no `if` with an alternative inside the
expression has a consequence that is, or reaches, an `if` without one. -/
theorem print_reread {source : String} {p : Program} {e : Expr}
    (hread : readProgram source = .ok p) (he : e ∈ Program.subterms p) :
    ∃ e', readProgram e.print = .ok [.expression e'] ∧ e'.print = e.print ∧
      (e'.bare = e.bare ↔ ∀ s c t a, .ifElse s c t a ∈ e.subterms →
        ∀ s' c' t', ¬t.Reaches (.ifThen s' c' t')) := by
  obtain ⟨e', hread', hbare⟩ := Expr.readProgram_print (wellSpelled_of_readProgram hread he)
  refine ⟨e', hread', Expr.print_eq_of_bare_eq_reattach hbare, ?_⟩
  rw [hbare, Expr.bare_reattach_eq_iff]
  exact e.settled_iff

/-- A conditional without alternative at the end of a function in the argument of an application,
where the application is the consequence of a conditional that has an alternative. -/
def danglingArgument : Expr :=
  .ifElse ⟨0, 52⟩ (.name ⟨3, 4⟩ "a")
    (.apply ⟨10, 44⟩ (.name ⟨11, 12⟩ "f")
      (.lambda ⟨15, 43⟩ "x"
        (.ifThen ⟨26, 43⟩ (.unary ⟨29, 34⟩ .not (.name ⟨33, 34⟩ "x")) (.text ⟨40, 43⟩ "b"))))
    (.unary ⟨50, 52⟩ .negate (.integer ⟨51, 52⟩ 1))

/-- The text of `danglingArgument` is read as another expression, which has the same text. -/
theorem print_reread_danglingArgument :
    readProgram "if a then (f | lambda x . if not x then \"b\") else -1" =
      .ok [.expression danglingArgument] ∧
    danglingArgument ∈ Program.subterms [.expression danglingArgument] ∧
    ∃ e', readProgram danglingArgument.print = .ok [.expression e'] ∧
      e'.print = danglingArgument.print ∧ e'.bare ≠ danglingArgument.bare := by
  have hread : readProgram "if a then (f | lambda x . if not x then \"b\") else -1" =
      .ok [.expression danglingArgument] :=
    readProgram_eq_ok_of_toOption (by decide +kernel)
  have hmem : danglingArgument ∈ Program.subterms [.expression danglingArgument] := by decide
  obtain ⟨e', hread', hprint, hiff⟩ := print_reread hread hmem
  refine ⟨hread, hmem, e', hread', hprint, fun hbare => ?_⟩
  exact hiff.mp hbare _ _ _ _ (List.mem_cons_self ..) _ _ _ (.argument (.body (.refl _)))

end Duet
