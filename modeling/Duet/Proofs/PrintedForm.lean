import Duet.Proofs.BareTrees
import Duet.Proofs.Spelling
import Duet.Tree.Printer

/-!
# The printed form of a tree

`Expr.written` is the concrete tree that the printer writes, with its parentheses and without
spans. Printing spells it (`spells_print`): the tokens of the text are those of the tree.
Forgetting the parentheses gives the expression back (`tree_written`), so the text is read as that
expression again if the written tree is admissible. By `admissible_written` it is, unless an
`else` follows a conditional without alternative (`Settled`).
-/

namespace Duet

/-! ## What the printer writes -/

/-- An expression in parentheses if they are needed. -/
def Concrete.wrapIf (wrap : Bool) (c : Concrete) : Concrete :=
  if wrap then .paren .nowhere .nowhere c else c

namespace Expr

/-- The expression as it is printed. -/
def written : Expr → Concrete
  | .integer _ value => .integer .nowhere value
  | .text _ value => .text .nowhere value
  | .boolean _ value => .boolean .nowhere value
  | .nil _ => .nil .nowhere
  | .name _ x => .name .nowhere x
  | .unary _ op e => .unary .nowhere op (.wrapIf e.wrapsUnderUnary e.written)
  | .binary _ op l r =>
    .binary .nowhere op (.wrapIf (l.wrapsUnderBinary op.level false) l.written)
      (.wrapIf (r.wrapsUnderBinary op.level true) r.written)
  | .ifThen _ c t => .ifThen .nowhere .nowhere c.written t.written
  | .ifElse _ c t e => .ifElse .nowhere .nowhere .nowhere c.written t.written e.written
  | .lambda _ param body => .lambda .nowhere .nowhere .nowhere param body.written
  | .apply _ f a => .apply .nowhere (.wrapIf f.wrapsAsFunction f.written) a.written

/-- Parentheses without a place end nowhere. -/
theorem lastSpan_wrapIf {c : Concrete} (wrap : Bool) (h : c.lastSpan = .nowhere) :
    (c.wrapIf wrap).lastSpan = .nowhere := by
  cases wrap with
  | false => exact h
  | true => rfl

/-- What is written has no place, and so its last token has none. -/
theorem lastSpan_written (e : Expr) : e.written.lastSpan = .nowhere := by
  induction e with
  | integer | text | boolean | nil | name => rfl
  | unary s op e ih => exact lastSpan_wrapIf _ ih
  | binary s op l r ihl ihr => exact lastSpan_wrapIf _ ihr
  | ifThen s c t ihc iht => exact iht
  | ifElse s c t e ihc iht ihe => exact ihe
  | lambda s param body ih => exact ih
  | apply s f a ihf iha => exact iha

/-- Parentheses around what is written change nothing of the tree. -/
theorem tree_wrapIf {e : Expr} {c : Concrete} (wrap : Bool) (h : c.tree = e.bare) :
    (c.wrapIf wrap).tree = e.bare := by
  cases wrap with
  | false => exact h
  | true =>
    simp only [Concrete.wrapIf, if_true, Concrete.tree, h, Span.merge_self, withSpan_bare]

/-- Without the parentheses, what is written is the expression. -/
theorem tree_written (e : Expr) : e.written.tree = e.bare := by
  induction e with
  | integer | text | boolean | nil | name => rfl
  | unary s op e ih =>
    simp only [written, Concrete.tree, tree_wrapIf _ ih, lastSpan_wrapIf _ e.lastSpan_written,
      Span.merge_self]
    rfl
  | binary s op l r ihl ihr =>
    simp only [written, Concrete.tree, tree_wrapIf _ ihl, tree_wrapIf _ ihr, span_bare,
      Span.merge_self]
    rfl
  | ifThen s c t ihc iht =>
    simp only [written, Concrete.tree, ihc, iht, lastSpan_written, Span.merge_self]
    rfl
  | ifElse s c t e ihc iht ihe =>
    simp only [written, Concrete.tree, ihc, iht, ihe, lastSpan_written, Span.merge_self]
    rfl
  | lambda s param body ih =>
    simp only [written, Concrete.tree, ih, lastSpan_written, Span.merge_self]
    rfl
  | apply s f a ihf iha =>
    simp only [written, Concrete.tree, tree_wrapIf _ ihf, iha, span_bare, Span.merge_self]
    rfl

end Expr

/-! ## Printing spells what is written -/

namespace Expr

/-- Every text and every name of the expression can be spelled. -/
def WellSpelled : Expr → Prop
  | .integer .. | .boolean .. | .nil _ => True
  | .text _ value => (Token.text value).WellSpelled
  | .name _ x => (Token.name x).WellSpelled
  | .unary _ _ e => e.WellSpelled
  | .binary _ _ l r => l.WellSpelled ∧ r.WellSpelled
  | .ifThen _ c t => c.WellSpelled ∧ t.WellSpelled
  | .ifElse _ c t e => c.WellSpelled ∧ t.WellSpelled ∧ e.WellSpelled
  | .lambda _ param body => (Token.name param).WellSpelled ∧ body.WellSpelled
  | .apply _ f a => f.WellSpelled ∧ a.WellSpelled

end Expr

/-- Every binary operator can be spelled. -/
theorem BinaryOp.wellSpelled_token (op : BinaryOp) : op.token.WellSpelled := by
  cases op with
  | arith op => cases op <;> trivial
  | _ => trivial

/-- The token of a binary operator is spelled as its symbol. -/
theorem BinaryOp.spelling_token (op : BinaryOp) : op.token.spelling = op.symbol := by
  cases op with
  | arith op => cases op <;> rfl
  | _ => rfl

namespace Lexer

/-- The text, put in front of a break, has the tokens of `c`. -/
def Spells (s : String) (c : Concrete) : Prop :=
  ∀ (rest : List Char) (ts : List Token), Breaks rest → Lexes rest ts →
    Lexes (s.toList ++ rest) (c.tokens ++ ts)

/-- A text in parentheses has the tokens of the expression in parentheses. -/
theorem Spells.wrapIf {s : String} {c : Concrete} (h : Spells s c) (wrap : Bool) :
    Spells (Expr.wrapIf wrap s) (c.wrapIf wrap) := by
  cases wrap with
  | false => exact h
  | true =>
    intro rest ts hrest hts
    have hclose : Lexes (')' :: rest) (.symbol .closeParen :: ts) := .of_token rfl hts
    have hopen := (h _ _ (.close rest) hclose).openParen
    simpa [Expr.wrapIf, Concrete.wrapIf, Concrete.tokens, Concrete.lexemes] using hopen

/-- Printing spells what is written. -/
theorem spells_print {e : Expr} (he : e.WellSpelled) : Spells e.print e.written := by
  induction e with
  | integer s v =>
    intro rest ts hrest hts
    exact Lexes.spelling (t := .integer v) trivial hrest hts
  | text s v =>
    intro rest ts hrest hts
    exact Lexes.spelling (t := .text v) he hrest hts
  | boolean s v =>
    intro rest ts hrest hts
    cases v with
    | true => exact Lexes.spelling (t := .keyword .true_) trivial hrest hts
    | false => exact Lexes.spelling (t := .keyword .false_) trivial hrest hts
  | nil s =>
    intro rest ts hrest hts
    exact Lexes.spelling (t := .keyword .nil) trivial hrest hts
  | name s x =>
    intro rest ts hrest hts
    exact Lexes.spelling (t := .name x) he hrest hts
  | unary s op e ih =>
    intro rest ts hrest hts
    have hoperand := (ih he).wrapIf e.wrapsUnderUnary _ _ hrest hts
    cases op with
    | not =>
      have hnot := Lexes.spelling (t := .keyword .not_) trivial (.blank _) hoperand.blank
      simpa [Expr.print, UnaryOp.symbol, Expr.written, Concrete.tokens, Concrete.lexemes,
        UnaryOp.token, Token.spelling, Keyword.spelling] using hnot
    | negate =>
      simpa [Expr.print, UnaryOp.symbol, Expr.written, Concrete.tokens, Concrete.lexemes,
        UnaryOp.token] using hoperand.minus
  | binary s op l r ihl ihr =>
    intro rest ts hrest hts
    -- tokens are put in front from the last to the first; each finds a break behind it
    have hright := (ihr he.2).wrapIf (r.wrapsUnderBinary op.level true) _ _ hrest hts
    have hop := Lexes.spelling op.wellSpelled_token (.blank _) hright.blank
    have hleft := (ihl he.1).wrapIf (l.wrapsUnderBinary op.level false) _ _ (.blank _) hop.blank
    rw [op.spelling_token] at hleft
    simpa [Expr.print, Expr.written, Concrete.tokens, Concrete.lexemes] using hleft
  | ifThen s c t ihc iht =>
    intro rest ts hrest hts
    have ht := iht he.2 _ _ hrest hts
    have hthen := Lexes.spelling (t := .keyword .then_) trivial (.blank _) ht.blank
    have hc := ihc he.1 _ _ (.blank _) hthen.blank
    have hif := Lexes.spelling (t := .keyword .if_) trivial (.blank _) hc.blank
    simpa [Expr.print, Expr.written, Concrete.tokens, Concrete.lexemes, Token.spelling,
      Keyword.spelling] using hif
  | ifElse s c t e ihc iht ihe =>
    intro rest ts hrest hts
    obtain ⟨hc, ht, he⟩ := he
    have he := ihe he _ _ hrest hts
    have helse := Lexes.spelling (t := .keyword .else_) trivial (.blank _) he.blank
    have ht := iht ht _ _ (.blank _) helse.blank
    have hthen := Lexes.spelling (t := .keyword .then_) trivial (.blank _) ht.blank
    have hc := ihc hc _ _ (.blank _) hthen.blank
    have hif := Lexes.spelling (t := .keyword .if_) trivial (.blank _) hc.blank
    simpa [Expr.print, Expr.written, Concrete.tokens, Concrete.lexemes, Token.spelling,
      Keyword.spelling] using hif
  | lambda s param body ih =>
    intro rest ts hrest hts
    have hbody := ih he.2 _ _ hrest hts
    have hdot := Lexes.spelling (t := .symbol .dot) trivial (.blank _) hbody.blank
    have hparam := Lexes.spelling he.1 (.blank _) hdot.blank
    have hlambda := Lexes.spelling (t := .keyword .lambda) trivial (.blank _) hparam.blank
    simpa [Expr.print, Expr.written, Concrete.tokens, Concrete.lexemes, Token.spelling,
      Keyword.spelling, Symbol.spelling] using hlambda
  | apply s f a ihf iha =>
    intro rest ts hrest hts
    have ha := iha he.2 _ _ hrest hts
    have hpipe := Lexes.spelling (t := .symbol .pipe) trivial (.blank _) ha.blank
    have hf := (ihf he.1).wrapIf f.wrapsAsFunction _ _ (.blank _) hpipe.blank
    simpa [Expr.print, Expr.written, Concrete.tokens, Concrete.lexemes, Token.spelling,
      Symbol.spelling] using hf

end Lexer

/-! ## When the printed form is admissible -/

namespace Expr

/-- Whether the expression is a conditional without alternative, or ends in one when it is
printed. -/
def endsShort : Expr → Bool
  | .ifThen .. => true
  | .ifElse _ _ _ e => e.endsShort
  | .lambda _ _ body => body.endsShort
  | .apply _ _ a => a.endsShort
  | _ => false

/-- No consequence that is followed by an `else` ends in a conditional without alternative. -/
def Settled : Expr → Prop
  | .integer .. | .text .. | .boolean .. | .nil _ | .name .. => True
  | .unary _ _ e => e.Settled
  | .binary _ _ l r => l.Settled ∧ r.Settled
  | .ifThen _ c t => c.Settled ∧ t.Settled
  | .ifElse _ c t e => t.endsShort = false ∧ c.Settled ∧ t.Settled ∧ e.Settled
  | .lambda _ _ body => body.Settled
  | .apply _ f a => f.Settled ∧ a.Settled

instance decidableSettled : (e : Expr) → Decidable e.Settled
  | .integer .. | .text .. | .boolean .. | .nil _ | .name .. => .isTrue trivial
  | .unary _ _ e => decidableSettled e
  | .binary _ _ l r | .ifThen _ l r | .apply _ l r =>
    have := decidableSettled l
    have := decidableSettled r
    inferInstanceAs (Decidable (_ ∧ _))
  | .ifElse _ c t e =>
    have := decidableSettled c
    have := decidableSettled t
    have := decidableSettled e
    inferInstanceAs (Decidable (_ ∧ _ ∧ _ ∧ _))
  | .lambda _ _ body => decidableSettled body

end Expr

namespace Concrete

/-- What ends in a conditional without alternative ends open. -/
theorem endsOpen_of_endsShort {c : Concrete} (h : c.endsShort = true) : c.endsOpen = true := by
  induction c with
  | unary s op e ih => exact ih h
  | binary s op l r _ ih => exact ih h
  | ifThen | ifElse | lambda | apply => rfl
  | _ => cases h

/-- Parentheses close an expression that ends open. -/
theorem endsOpen_wrapIf {wrap : Bool} {c : Concrete} (h : wrap = false → c.endsOpen = false) :
    (c.wrapIf wrap).endsOpen = false := by
  cases wrap with
  | false => exact h rfl
  | true => rfl

/-- Parentheses make an atom of an expression that is none. -/
theorem isAtom_wrapIf {wrap : Bool} {c : Concrete} (h : wrap = false → c.isAtom = true) :
    (c.wrapIf wrap).isAtom = true := by
  cases wrap with
  | false => exact h rfl
  | true => rfl

/-- Parentheses hide the operator at the top. -/
theorem mem_level?_wrapIf {wrap : Bool} {c : Concrete} {k : Nat}
    (h : k ∈ (c.wrapIf wrap).level?) : wrap = false ∧ k ∈ c.level? := by
  cases wrap with
  | false => exact ⟨rfl, h⟩
  | true => cases h

/-- Parentheses around an admissible expression are admissible. -/
theorem admissible_wrapIf {c : Concrete} (wrap : Bool) (h : c.Admissible) :
    (c.wrapIf wrap).Admissible := by
  cases wrap <;> exact h

end Concrete

namespace Expr

/-- An operand of a unary operator that is printed without parentheses is not open-ended. -/
theorem not_isOpenEnded_of_unary {e : Expr} (h : e.wrapsUnderUnary = false) :
    e.isOpenEnded = false := by
  cases e with
  | binary => rfl
  | _ => exact h

/-- An operand of a binary operator that is printed without parentheses is not open-ended. -/
theorem not_isOpenEnded_of_binary {e : Expr} {level : Nat} {onRight : Bool}
    (h : e.wrapsUnderBinary level onRight = false) : e.isOpenEnded = false := by
  cases e with
  | binary => rfl
  | _ => exact h

/-- An operand is written so that it does not reach over an operator. -/
theorem endsOpen_written {e : Expr} (h : e.isOpenEnded = false) : e.written.endsOpen = false := by
  induction e with
  | ifThen | ifElse | lambda | apply => cases h
  | unary s op e ih =>
    exact Concrete.endsOpen_wrapIf fun hwrap => ih (not_isOpenEnded_of_unary hwrap)
  | binary s op l r _ ih =>
    exact Concrete.endsOpen_wrapIf fun hwrap => ih (not_isOpenEnded_of_binary hwrap)
  | _ => rfl

/-- An expression ends in a conditional without alternative exactly if its printed form does. -/
theorem endsShort_written (e : Expr) : e.written.endsShort = e.endsShort := by
  -- What does not reach to the right does not end in a conditional either.
  have hclosed {e : Expr} (h : e.isOpenEnded = false) : e.written.endsShort = false := by
    rw [Bool.eq_false_iff]
    intro hshort
    exact absurd (Concrete.endsOpen_of_endsShort hshort) (by simp [endsOpen_written h])
  induction e with
  | ifThen => rfl
  | ifElse s c t e _ _ ih => exact ih
  | lambda s param body ih => exact ih
  | apply s f a _ ih => exact ih
  | _ => exact hclosed rfl

/-- An operand of a unary operator that is printed without parentheses has no binary operator at the
top. -/
theorem level?_written_of_unary {e : Expr} (h : e.wrapsUnderUnary = false) :
    e.written.level? = none := by
  cases e with
  | binary => cases h
  | _ => rfl

/-- An operand that is printed without parentheses binds at least as tightly as the operator, and
more tightly on its right side. -/
theorem le_of_mem_level?_written {e : Expr} {level k : Nat} {onRight : Bool}
    (h : e.wrapsUnderBinary level onRight = false) (hk : k ∈ e.written.level?) :
    level ≤ k ∧ (onRight = true → level < k) := by
  cases e with
  | binary s op l r =>
    obtain rfl := Option.some.inj hk
    simp only [wrapsUnderBinary, Bool.or_eq_false_iff, decide_eq_false_iff_not,
      Bool.and_eq_false_iff] at h
    obtain ⟨hlt, hne⟩ := h
    refine ⟨by omega, ?_⟩
    rintro rfl
    rcases hne with hne | hne
    · omega
    · cases hne
  | _ => cases hk

/-- A function that is printed without parentheses is an atom. -/
theorem isAtom_written {e : Expr} (h : e.wrapsAsFunction = false) : e.written.isAtom = true := by
  cases e with
  | unary | binary | ifThen | ifElse | lambda | apply => cases h
  | _ => rfl

/-- If no `else` follows a conditional without alternative, what is written is admissible. -/
theorem admissible_written {e : Expr} (h : e.Settled) : e.written.Admissible := by
  induction e with
  | integer | text | boolean | nil | name => trivial
  | unary s op e ih =>
    refine ⟨?_, Concrete.admissible_wrapIf _ (ih h)⟩
    rw [Option.eq_none_iff_forall_not_mem]
    intro k hk
    obtain ⟨hwrap, hk⟩ := Concrete.mem_level?_wrapIf hk
    rw [level?_written_of_unary hwrap] at hk
    cases hk
  | binary s op l r ihl ihr =>
    refine ⟨?_, ?_, ?_, Concrete.admissible_wrapIf _ (ihl h.1),
      Concrete.admissible_wrapIf _ (ihr h.2)⟩
    · intro k hk
      obtain ⟨hwrap, hk⟩ := Concrete.mem_level?_wrapIf hk
      exact (le_of_mem_level?_written hwrap hk).2 rfl
    · intro k hk
      obtain ⟨hwrap, hk⟩ := Concrete.mem_level?_wrapIf hk
      exact (le_of_mem_level?_written hwrap hk).1
    · exact Concrete.endsOpen_wrapIf fun hwrap => endsOpen_written (not_isOpenEnded_of_binary hwrap)
  | ifThen s c t ihc iht => exact ⟨ihc h.1, iht h.2⟩
  | ifElse s c t e ihc iht ihe =>
    obtain ⟨hshort, hc, ht, he⟩ := h
    exact ⟨(endsShort_written t).trans hshort, ihc hc, iht ht, ihe he⟩
  | lambda s param body ih => exact ih h
  | apply s f a ihf iha =>
    exact ⟨Concrete.isAtom_wrapIf isAtom_written, Concrete.admissible_wrapIf _ (ihf h.1), iha h.2⟩

end Expr

end Duet
