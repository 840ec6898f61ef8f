import Duet.Execution
import Duet.Proofs.PrintedForm

/-!
# Printing and reading again

The printer writes the branches of a conditional bare, so an `else` that follows a conditional
without alternative is taken by that conditional when the text is read again. `Expr.reattach`
is the expression that comes out: it is printed in the same way (`print_reattach`), it is always
settled (`settled_reattach`), and it is the expression itself exactly if that was settled
(`bare_reattach_eq_iff`). Hence a printed text can always be read again, and gives the expression
back, spans aside, exactly if the expression is settled.
-/

namespace Duet

/-- A source is read exactly if its tokens can be lexed and parsed. -/
theorem readProgram_eq_ok_iff {source : String} {p : Program} :
    readProgram source = .ok p ↔ ∃ ls, lex source = .ok ls ∧ parse ls = .ok p := by
  unfold readProgram
  constructor
  · intro h
    split at h
    · cases h
    · next ls hlex =>
      split at h
      · cases h
      · next hparse =>
        cases h
        exact ⟨ls, hlex, hparse⟩
  · rintro ⟨ls, hlex, hparse⟩
    simp only [hlex, hparse]

/-- A successful reading may be evaluated as an option, whose equality is decidable. -/
theorem readProgram_eq_ok_of_toOption {source : String} {p : Program}
    (h : (readProgram source).toOption = some p) : readProgram source = .ok p := by
  cases hread : readProgram source with
  | error failure =>
    rw [hread] at h
    cases h
  | ok program =>
    rw [hread] at h
    cases h
    rfl

namespace Expr

/-! ## Where an `else` goes -/

/-- The expression with the alternative `e` for the last conditional at its end that has none. -/
def attach : Expr → Expr → Expr
  | .ifThen s c t, e => if t.endsShort then .ifThen s c (t.attach e) else .ifElse s c t e
  | .ifElse s c t a, e => .ifElse s c t (a.attach e)
  | .lambda s param body, e => .lambda s param (body.attach e)
  | .apply s f a, e => .apply s f (a.attach e)
  | other, _ => other

/-- What the printed text of the expression is read as: every `else` goes to the last conditional
before it that has none. -/
def reattach : Expr → Expr
  | .unary s op e => .unary s op e.reattach
  | .binary s op l r => .binary s op l.reattach r.reattach
  | .ifThen s c t => .ifThen s c.reattach t.reattach
  | .ifElse s c t e =>
    if t.reattach.endsShort then .ifThen s c.reattach (t.reattach.attach e.reattach)
    else .ifElse s c.reattach t.reattach e.reattach
  | .lambda s param body => .lambda s param body.reattach
  | .apply s f a => .apply s f.reattach a.reattach
  | e => e

/-- The alternative is printed behind the expression to which it is attached. -/
theorem print_attach {t : Expr} (e : Expr) (h : t.endsShort = true) :
    (t.attach e).print = t.print ++ " else " ++ e.print := by
  induction t with
  | ifThen s c t _ ih =>
    unfold attach
    split
    · next hshort => simp only [print, ih hshort, String.append_assoc]
    · rfl
  | ifElse s c t a _ _ ih => simp only [attach, print, ih h, String.append_assoc]
  | lambda s param body ih => simp only [attach, print, ih h, String.append_assoc]
  | apply s f a _ ih => simp only [attach, print, ih h, String.append_assoc]
  | _ => cases h

/-- Reattaching does not change where parentheses are needed. -/
theorem wraps_reattach (e : Expr) :
    e.reattach.wrapsUnderUnary = e.wrapsUnderUnary ∧
    (∀ level onRight, e.reattach.wrapsUnderBinary level onRight = e.wrapsUnderBinary level onRight) ∧
    e.reattach.wrapsAsFunction = e.wrapsAsFunction := by
  cases e with
  | ifElse s c t e =>
    unfold reattach
    split <;> exact ⟨rfl, fun _ _ => rfl, rfl⟩
  | _ => exact ⟨rfl, fun _ _ => rfl, rfl⟩

/-- Reattaching does not change the text. -/
theorem print_reattach (e : Expr) : e.reattach.print = e.print := by
  induction e with
  | integer | text | boolean | nil | name => rfl
  | unary s op e ih => simp only [reattach, print, ih, (wraps_reattach e).1]
  | binary s op l r ihl ihr =>
    simp only [reattach, print, ihl, ihr, (wraps_reattach l).2.1, (wraps_reattach r).2.1]
  | ifThen s c t ihc iht => simp only [reattach, print, ihc, iht]
  | ifElse s c t e ihc iht ihe =>
    unfold reattach
    split
    · next hshort =>
      simp only [print, print_attach _ hshort, ihc, iht, ihe, String.append_assoc]
    · simp only [print, ihc, iht, ihe]
  | lambda s param body ih => simp only [reattach, print, ih]
  | apply s f a ihf iha => simp only [reattach, print, ihf, iha, (wraps_reattach f).2.2]

/-! ## Reattaching settles -/

/-- An alternative that goes to the last conditional leaves nothing unsettled. -/
theorem settled_attach {t e : Expr} (ht : t.Settled) (he : e.Settled) : (t.attach e).Settled := by
  induction t with
  | ifThen s c t _ ih =>
    unfold attach
    split
    · exact ⟨ht.1, ih ht.2⟩
    · next hshort => exact ⟨by simpa using hshort, ht.1, ht.2, he⟩
  | ifElse s c t a _ _ ih => exact ⟨ht.1, ht.2.1, ht.2.2.1, ih ht.2.2.2⟩
  | lambda s param body ih => exact ih ht
  | apply s f a _ ih => exact ⟨ht.1, ih ht.2⟩
  | _ => exact ht

/-- After reattaching, no `else` follows a conditional without alternative. -/
theorem settled_reattach (e : Expr) : e.reattach.Settled := by
  induction e with
  | integer | text | boolean | nil | name => trivial
  | unary s op e ih => exact ih
  | binary s op l r ihl ihr => exact ⟨ihl, ihr⟩
  | ifThen s c t ihc iht => exact ⟨ihc, iht⟩
  | ifElse s c t e ihc iht ihe =>
    unfold reattach
    split
    · exact ⟨ihc, settled_attach iht ihe⟩
    · next hshort => exact ⟨by simpa using hshort, ihc, iht, ihe⟩
  | lambda s param body ih => exact ih
  | apply s f a ihf iha => exact ⟨ihf, iha⟩

/-- A settled expression is read as itself. -/
theorem reattach_eq_self {e : Expr} (h : e.Settled) : e.reattach = e := by
  induction e with
  | integer | text | boolean | nil | name => rfl
  | unary s op e ih => rw [reattach, ih h]
  | binary s op l r ihl ihr => rw [reattach, ihl h.1, ihr h.2]
  | ifThen s c t ihc iht => rw [reattach, ihc h.1, iht h.2]
  | ifElse s c t e ihc iht ihe =>
    obtain ⟨hshort, hc, ht, he⟩ := h
    rw [reattach, ihc hc, iht ht, ihe he, hshort]
    rfl
  | lambda s param body ih => rw [reattach, ih h]
  | apply s f a ihf iha => rw [reattach, ihf h.1, iha h.2]

/-- Spans do not matter for where an expression ends. -/
theorem endsShort_bare (e : Expr) : e.bare.endsShort = e.endsShort := by
  induction e with
  | ifElse s c t e _ _ ih => exact ih
  | lambda s param body ih => exact ih
  | apply s f a _ ih => exact ih
  | _ => rfl

/-- Spans do not matter for whether an expression is settled. -/
theorem settled_bare_iff (e : Expr) : e.bare.Settled ↔ e.Settled := by
  induction e with
  | integer | text | boolean | nil | name => rfl
  | unary s op e ih => exact ih
  | binary s op l r ihl ihr => exact and_congr ihl ihr
  | ifThen s c t ihc iht => exact and_congr ihc iht
  | ifElse s c t e ihc iht ihe =>
    exact and_congr (by rw [← endsShort_bare t]; rfl) (and_congr ihc (and_congr iht ihe))
  | lambda s param body ih => exact ih
  | apply s f a ihf iha => exact and_congr ihf iha

/-- An expression is what its text is read as, spans aside, exactly if it is settled. -/
theorem bare_reattach_eq_iff (e : Expr) : e.reattach.bare = e.bare ↔ e.Settled := by
  constructor
  · intro h
    rw [← settled_bare_iff, ← h, settled_bare_iff]
    exact settled_reattach e
  · intro h
    rw [reattach_eq_self h]

/-! ## Reading a printed text -/

/-- Attaching an alternative needs no new spellings. -/
theorem wellSpelled_attach {t e : Expr} (ht : t.WellSpelled) (he : e.WellSpelled) :
    (t.attach e).WellSpelled := by
  induction t with
  | ifThen s c t _ ih =>
    unfold attach
    split
    · exact ⟨ht.1, ih ht.2⟩
    · exact ⟨ht.1, ht.2, he⟩
  | ifElse s c t a _ _ ih => exact ⟨ht.1, ht.2.1, ih ht.2.2⟩
  | lambda s param body ih => exact ⟨ht.1, ih ht.2⟩
  | apply s f a _ ih => exact ⟨ht.1, ih ht.2⟩
  | _ => exact ht

/-- What a printed text is read as needs no new spellings. -/
theorem wellSpelled_reattach {e : Expr} (h : e.WellSpelled) : e.reattach.WellSpelled := by
  induction e with
  | integer | text | boolean | nil | name => exact h
  | unary s op e ih => exact ih h
  | binary s op l r ihl ihr => exact ⟨ihl h.1, ihr h.2⟩
  | ifThen s c t ihc iht => exact ⟨ihc h.1, iht h.2⟩
  | ifElse s c t e ihc iht ihe =>
    obtain ⟨hc, ht, he⟩ := h
    unfold reattach
    split
    · exact ⟨ihc hc, wellSpelled_attach (iht ht) (ihe he)⟩
    · exact ⟨ihc hc, iht ht, ihe he⟩
  | lambda s param body ih => exact ⟨h.1, ih h.2⟩
  | apply s f a ihf iha => exact ⟨ihf h.1, iha h.2⟩

/-- A printed text is read as one expression statement: the expression with every `else`
reattached, spans aside. -/
theorem readProgram_print {e : Expr} (he : e.WellSpelled) :
    ∃ e', readProgram e.print = .ok [.expression e'] ∧ e'.bare = e.reattach.bare := by
  have hspells := Lexer.spells_print (wellSpelled_reattach he)
  rw [print_reattach] at hspells
  obtain ⟨ls, hlex, htokens⟩ := hspells [] [] .nil .nil 0
  rw [List.append_nil] at hlex htokens
  obtain ⟨e', hparse, hbare⟩ := parse_of_tokens_eq (admissible_written (settled_reattach e)) htokens
  refine ⟨e', readProgram_eq_ok_iff.mpr ⟨ls, hlex, hparse⟩, ?_⟩
  rw [hbare, tree_written, bare_bare]

end Expr

/-! ## The expressions of a source -/

/-- The expression and all expressions inside it. -/
def Expr.subterms : Expr → List Expr
  | .integer s value => [.integer s value]
  | .text s value => [.text s value]
  | .boolean s value => [.boolean s value]
  | .nil s => [.nil s]
  | .name s x => [.name s x]
  | .unary s op e => .unary s op e :: e.subterms
  | .binary s op l r => .binary s op l r :: (l.subterms ++ r.subterms)
  | .ifThen s c t => .ifThen s c t :: (c.subterms ++ t.subterms)
  | .ifElse s c t e => .ifElse s c t e :: (c.subterms ++ t.subterms ++ e.subterms)
  | .lambda s param body => .lambda s param body :: body.subterms
  | .apply s f a => .apply s f a :: (f.subterms ++ a.subterms)

/-- All expressions of a program. -/
def Program.subterms (p : Program) : List Expr :=
  p.flatMap (·.value.subterms)

/-- The parts of an expression can be spelled if the expression can. -/
theorem Expr.WellSpelled.of_mem_subterms {e e' : Expr} (h : e.WellSpelled)
    (hmem : e' ∈ e.subterms) : e'.WellSpelled := by
  induction e with
  | integer | text | boolean | nil | name =>
    obtain rfl := List.mem_singleton.mp hmem
    exact h
  | unary s op e ih =>
    rcases List.mem_cons.mp hmem with rfl | hmem
    · exact h
    · exact ih h hmem
  | binary s op l r ihl ihr | ifThen s l r ihl ihr | apply s l r ihl ihr =>
    rcases List.mem_cons.mp hmem with rfl | hmem
    · exact h
    · rcases List.mem_append.mp hmem with hmem | hmem
      · exact ihl h.1 hmem
      · exact ihr h.2 hmem
  | ifElse s c t e ihc iht ihe =>
    rcases List.mem_cons.mp hmem with rfl | hmem
    · exact h
    · simp only [List.mem_append] at hmem
      rcases hmem with (hmem | hmem) | hmem
      · exact ihc h.1 hmem
      · exact iht h.2.1 hmem
      · exact ihe h.2.2 hmem
  | lambda s param body ih =>
    rcases List.mem_cons.mp hmem with rfl | hmem
    · exact h
    · exact ih h.2 hmem

/-- Spans do not matter for whether an expression can be spelled. -/
theorem Expr.wellSpelled_withSpan_iff (e : Expr) (s : Span) :
    (e.withSpan s).WellSpelled ↔ e.WellSpelled := by
  cases e <;> rfl

/-- A tree with well-spelled tokens is well spelled. -/
theorem Concrete.wellSpelled_tree {c : Concrete} (h : ∀ l ∈ c.lexemes, l.token.WellSpelled) :
    c.tree.WellSpelled := by
  induction c with
  | integer | boolean | nil => trivial
  | text s v => exact h _ (List.mem_singleton.mpr rfl)
  | name s x => exact h _ (List.mem_singleton.mpr rfl)
  | paren opening closing e ih =>
    rw [tree, Expr.wellSpelled_withSpan_iff]
    exact ih fun l hl => h l (by simp [lexemes, hl])
  | unary s op e ih => exact ih fun l hl => h l (List.mem_cons_of_mem _ hl)
  | binary s op l r ihl ihr | ifThen _ _ l r ihl ihr | apply s l r ihl ihr =>
    exact ⟨ihl fun x hx => h x (by simp [lexemes, hx]), ihr fun x hx => h x (by simp [lexemes, hx])⟩
  | ifElse sif sthen selse c t e ihc iht ihe =>
    exact ⟨ihc fun l hl => h l (by simp [lexemes, hl]), iht fun l hl => h l (by simp [lexemes, hl]),
      ihe fun l hl => h l (by simp [lexemes, hl])⟩
  | lambda s sparam sdot param body ih =>
    exact ⟨h ⟨.name param, sparam⟩ (by simp [lexemes]), ih fun l hl => h l (by simp [lexemes, hl])⟩

/-- The value of the tree of a statement is the tree of its expression. -/
theorem ConcreteStmt.value_tree (c : ConcreteStmt) : c.tree.value = c.value.tree := by
  cases c <;> rfl

/-- The tokens of its expression are tokens of a statement. -/
theorem ConcreteStmt.mem_lexemes_of_mem_value {c : ConcreteStmt} {l : Lexeme}
    (h : l ∈ c.value.lexemes) : l ∈ c.lexemes := by
  cases c with
  | expression value => exact h
  | puts s value => exact List.mem_cons_of_mem _ h
  | define s sname sas x value closing =>
    have hmem : l ∈ value.lexemes := h
    simp [lexemes, hmem]

/-- The expressions of a source are well spelled. -/
theorem wellSpelled_of_readProgram {source : String} {p : Program}
    (hread : readProgram source = .ok p) {e : Expr} (he : e ∈ Program.subterms p) :
    e.WellSpelled := by
  obtain ⟨ls, hlex, hparse⟩ := readProgram_eq_ok_iff.mp hread
  obtain ⟨cs, rfl, hreads⟩ := Parser.parse_eq_ok_iff.mp hparse
  obtain ⟨-, rfl⟩ := Parser.readsProgram_iff.mp hreads
  obtain ⟨statement, hstatement, he⟩ := List.mem_flatMap.mp he
  obtain ⟨c, hc, rfl⟩ := List.mem_map.mp hstatement
  rw [c.value_tree] at he
  have htokens : ∀ l ∈ c.value.lexemes, l.token.WellSpelled := fun l hl =>
    wellSpelled_of_lex hlex l
      (List.mem_flatMap.mpr ⟨c, hc, ConcreteStmt.mem_lexemes_of_mem_value hl⟩)
  exact (Concrete.wellSpelled_tree htokens).of_mem_subterms he

/-- The text printed for an expression of a source is read again as one expression statement, and
its tree is the expression, spans aside, exactly if no `else` of the expression follows a
conditional without alternative. -/
theorem reread_eq_iff_settled {source : String} {p : Program} {e : Expr}
    (hread : readProgram source = .ok p) (he : e ∈ Program.subterms p) :
    ∃ e', readProgram e.print = .ok [.expression e'] ∧ (e'.bare = e.bare ↔ e.Settled) := by
  obtain ⟨e', hread', hbare⟩ := Expr.readProgram_print (wellSpelled_of_readProgram hread he)
  refine ⟨e', hread', ?_⟩
  rw [hbare]
  exact e.bare_reattach_eq_iff

/-- A product of a negated difference and a conditional. -/
def negatedProduct : Expr :=
  .binary ⟨0, 37⟩ (.arith .multiply)
    (.unary ⟨0, 8⟩ .negate
      (.binary ⟨1, 8⟩ (.arith .subtract) (.integer ⟨2, 3⟩ 1) (.integer ⟨6, 7⟩ 2)))
    (.ifElse ⟨11, 37⟩ (.name ⟨15, 16⟩ "a")
      (.apply ⟨22, 27⟩ (.name ⟨22, 23⟩ "f") (.integer ⟨26, 27⟩ 3)) (.text ⟨33, 36⟩ "b"))

/-- The printed text of `negatedProduct` is read as the same expression. -/
theorem reread_negatedProduct :
    readProgram "-(1 - 2) * (if a then f | 3 else \"b\")" = .ok [.expression negatedProduct] ∧
    negatedProduct ∈ Program.subterms [.expression negatedProduct] ∧
    ∃ e', readProgram negatedProduct.print = .ok [.expression e'] ∧
      e'.bare = negatedProduct.bare := by
  have hread : readProgram "-(1 - 2) * (if a then f | 3 else \"b\")" =
      .ok [.expression negatedProduct] :=
    readProgram_eq_ok_of_toOption (by decide +kernel)
  have hmem : negatedProduct ∈ Program.subterms [.expression negatedProduct] := by decide
  obtain ⟨e', hread', hiff⟩ := reread_eq_iff_settled hread hmem
  exact ⟨hread, hmem, e', hread', hiff.mpr (by decide)⟩

/-- A conditional without alternative in the consequence of one that has an alternative. -/
def danglingElse : Expr :=
  .ifElse ⟨0, 30⟩ (.name ⟨3, 4⟩ "a")
    (.ifThen ⟨10, 23⟩ (.name ⟨14, 15⟩ "b") (.integer ⟨21, 22⟩ 1)) (.integer ⟨29, 30⟩ 2)

/-- Its printed text is read as another tree: the inner conditional has taken the alternative. -/
theorem reread_danglingElse_ne :
    readProgram "if a then (if b then 1) else 2" = .ok [.expression danglingElse] ∧
    danglingElse.print = "if a then if b then 1 else 2" ∧
    ∃ e', readProgram danglingElse.print = .ok [.expression e'] ∧ e'.bare ≠ danglingElse.bare := by
  refine ⟨readProgram_eq_ok_of_toOption (by decide +kernel), by decide, ?_⟩
  refine ⟨.ifThen ⟨0, 28⟩ (.name ⟨3, 4⟩ "a")
    (.ifElse ⟨10, 28⟩ (.name ⟨13, 14⟩ "b") (.integer ⟨20, 21⟩ 1) (.integer ⟨27, 28⟩ 2)), ?_, ?_⟩
  · exact readProgram_eq_ok_of_toOption (by decide +kernel)
  · decide

end Duet
