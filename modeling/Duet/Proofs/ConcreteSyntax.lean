import Duet.Tree.Parser

/-!
# Concrete syntax trees

A concrete tree is a syntax tree as it is written: parentheses are nodes of their own, every token
keeps its span, and a definition says whether it is closed by `end`. Its leaves, from left to
right, are a list of tokens (`lexemes`), and forgetting the parentheses gives a syntax tree
(`tree`). A node that begins with a token of its own has the span from there to the last token below
it (`lastSpan`); an operator between two operands and an application have the span from the one
operand to the other.

Many concrete trees have the same tokens; `Admissible` picks those that follow the grammar:

* operators group by level, those of one level to the left, and the operand of a unary operator
  is no binary operator;
* only a literal, a name or a parenthesis is applied to an argument;
* a left operand does not end in a conditional, a function or an application (`endsOpen`), which
  would reach further to the right;
* what stands before an `else` does not end in a conditional without alternative (`endsShort`),
  which would take the `else` for itself;
* a statement that begins with a minus sign comes first or after an `end`.

All of this is decidable.
-/

namespace Duet

/-- The token of a unary operator. -/
def UnaryOp.token : UnaryOp → Token
  | .not => .keyword .not_
  | .negate => .symbol .minus

/-- The token of a binary operator. -/
def BinaryOp.token : BinaryOp → Token
  | .arith .add => .symbol .plus
  | .arith .subtract => .symbol .minus
  | .arith .multiply => .symbol .star
  | .arith .divide => .symbol .slash
  | .arith .modulo => .keyword .mod
  | .arith .greaterThan => .symbol .greater
  | .arith .lessThan => .symbol .less
  | .equals => .symbol .equal
  | .notEquals => .symbol .notEqual
  | .and => .keyword .and_
  | .or => .keyword .or_

/-- A binary operator is read from its own token only. -/
theorem Parser.binaryOp?_eq_some_iff {t : Token} {op : BinaryOp} :
    binaryOp? t = some op ↔ t = op.token := by
  constructor
  · intro h
    unfold binaryOp? at h
    split at h <;> cases h <;> rfl
  · rintro rfl
    cases op with
    | arith op => cases op <;> rfl
    | _ => rfl

/-- Every binary operator is above the lowest level. -/
theorem BinaryOp.level_pos (op : BinaryOp) : 0 < op.level := by
  cases op with
  | arith op => cases op <;> simp [level]
  | _ => simp [level]

/-- Every binary operator binds less tightly than a unary one. -/
theorem BinaryOp.level_lt_unaryLevel (op : BinaryOp) : op.level < unaryLevel := by
  cases op with
  | arith op => cases op <;> simp [level, unaryLevel]
  | _ => simp [level, unaryLevel]

/-- An expression as it is written. Spans that stand before the parts are those of tokens. -/
inductive Concrete where
  | integer (s : Span) (value : Nat)
  | text (s : Span) (value : String)
  | boolean (s : Span) (value : Bool)
  | nil (s : Span)
  | name (s : Span) (x : String)
  | paren (opening closing : Span) (inner : Concrete)
  | unary (s : Span) (op : UnaryOp) (operand : Concrete)
  | binary (s : Span) (op : BinaryOp) (left right : Concrete)
  | ifThen (sif sthen : Span) (condition consequence : Concrete)
  | ifElse (sif sthen selse : Span) (condition consequence alternative : Concrete)
  | lambda (s sparam sdot : Span) (param : String) (body : Concrete)
  | apply (s : Span) (function argument : Concrete)
deriving DecidableEq, Repr

namespace Concrete

/-- The tokens of an expression, in reading order. -/
def lexemes : Concrete → List Lexeme
  | .integer s value => [⟨.integer value, s⟩]
  | .text s value => [⟨.text value, s⟩]
  | .boolean s value => [⟨.keyword (if value then .true_ else .false_), s⟩]
  | .nil s => [⟨.keyword .nil, s⟩]
  | .name s x => [⟨.name x, s⟩]
  | .paren opening closing e =>
    ⟨.symbol .openParen, opening⟩ :: (e.lexemes ++ [⟨.symbol .closeParen, closing⟩])
  | .unary s op e => ⟨op.token, s⟩ :: e.lexemes
  | .binary s op l r => l.lexemes ++ ⟨op.token, s⟩ :: r.lexemes
  | .ifThen sif sthen c t =>
    ⟨.keyword .if_, sif⟩ :: (c.lexemes ++ ⟨.keyword .then_, sthen⟩ :: t.lexemes)
  | .ifElse sif sthen selse c t e =>
    ⟨.keyword .if_, sif⟩ :: (c.lexemes ++ ⟨.keyword .then_, sthen⟩ ::
      (t.lexemes ++ ⟨.keyword .else_, selse⟩ :: e.lexemes))
  | .lambda s sparam sdot param body =>
    ⟨.keyword .lambda, s⟩ :: ⟨.name param, sparam⟩ :: ⟨.symbol .dot, sdot⟩ :: body.lexemes
  | .apply s f a => f.lexemes ++ ⟨.symbol .pipe, s⟩ :: a.lexemes

/-- The span of the last token of an expression. -/
def lastSpan : Concrete → Span
  | .integer s _ | .text s _ | .boolean s _ | .nil s | .name s _ => s
  | .paren _ closing _ => closing
  | .unary _ _ e | .lambda _ _ _ _ e => e.lastSpan
  | .binary _ _ _ r | .ifThen _ _ _ r | .apply _ _ r => r.lastSpan
  | .ifElse _ _ _ _ _ e => e.lastSpan

/-- The tokens of an expression end with the one whose span is `lastSpan`. -/
theorem exists_lexemes_eq_concat (c : Concrete) :
    ∃ init t, c.lexemes = init ++ [⟨t, c.lastSpan⟩] := by
  induction c with
  | integer | text | boolean | nil | name => exact ⟨[], _, rfl⟩
  | paren opening closing e => exact ⟨⟨.symbol .openParen, opening⟩ :: e.lexemes, _, rfl⟩
  | unary s op e ih =>
    obtain ⟨init, t, he⟩ := ih
    exact ⟨⟨op.token, s⟩ :: init, t, congrArg (List.cons _) he⟩
  | lambda s sparam sdot param e ih =>
    obtain ⟨init, t, he⟩ := ih
    refine ⟨⟨.keyword .lambda, s⟩ :: ⟨.name param, sparam⟩ :: ⟨.symbol .dot, sdot⟩ :: init, t, ?_⟩
    exact congrArg (fun ls => _ :: _ :: _ :: ls) he
  | binary s op l r ihl ihr =>
    obtain ⟨init, t, hr⟩ := ihr
    refine ⟨l.lexemes ++ ⟨op.token, s⟩ :: init, t, ?_⟩
    change l.lexemes ++ ⟨op.token, s⟩ :: r.lexemes = _
    rw [hr, List.append_assoc]
    rfl
  | ifThen sif sthen l r ihl ihr =>
    obtain ⟨init, t, hr⟩ := ihr
    refine ⟨⟨.keyword .if_, sif⟩ :: (l.lexemes ++ ⟨.keyword .then_, sthen⟩ :: init), t, ?_⟩
    change _ :: (l.lexemes ++ ⟨.keyword .then_, sthen⟩ :: r.lexemes) = _
    rw [hr, List.cons_append, List.append_assoc]
    rfl
  | apply s l r ihl ihr =>
    obtain ⟨init, t, hr⟩ := ihr
    refine ⟨l.lexemes ++ ⟨.symbol .pipe, s⟩ :: init, t, ?_⟩
    change l.lexemes ++ ⟨.symbol .pipe, s⟩ :: r.lexemes = _
    rw [hr, List.append_assoc]
    rfl
  | ifElse sif sthen selse c d e ihc ihd ihe =>
    obtain ⟨init, t, he⟩ := ihe
    refine ⟨⟨.keyword .if_, sif⟩ :: (c.lexemes ++ ⟨.keyword .then_, sthen⟩ ::
      (d.lexemes ++ ⟨.keyword .else_, selse⟩ :: init)), t, ?_⟩
    change _ :: (c.lexemes ++ ⟨.keyword .then_, sthen⟩ ::
      (d.lexemes ++ ⟨.keyword .else_, selse⟩ :: e.lexemes)) = _
    rw [he, List.cons_append, List.append_assoc, List.cons_append, List.append_assoc]
    rfl

/-- The syntax tree of an expression: parentheses only widen the span of what they hold. -/
def tree : Concrete → Expr
  | .integer s value => .integer s value
  | .text s value => .text s value
  | .boolean s value => .boolean s value
  | .nil s => .nil s
  | .name s x => .name s x
  | .paren opening closing e => e.tree.withSpan (opening.merge closing)
  | .unary s op e => .unary (s.merge e.lastSpan) op e.tree
  | .binary _ op l r => .binary (l.tree.span.merge r.tree.span) op l.tree r.tree
  | .ifThen sif _ c t => .ifThen (sif.merge t.lastSpan) c.tree t.tree
  | .ifElse sif _ _ c t e => .ifElse (sif.merge e.lastSpan) c.tree t.tree e.tree
  | .lambda s _ _ param body => .lambda (s.merge body.lastSpan) param body.tree
  | .apply _ f a => .apply (f.tree.span.merge a.tree.span) f.tree a.tree

/-- What a reader of the expression hands on. -/
def parsed (c : Concrete) : Parser.Parsed := ⟨c.tree, c.lastSpan⟩

/-! ## Admissible trees -/

/-- The level of the operator at the top, if it is a binary one. -/
def level? : Concrete → Option Nat
  | .binary _ op _ _ => some op.level
  | _ => none

/-- Whether an expression is a literal, a name or a parenthesis. -/
def isAtom : Concrete → Bool
  | .integer .. | .text .. | .boolean .. | .nil _ | .name .. | .paren .. => true
  | _ => false

/-- Whether an expression is a conditional, a function or an application, or ends in one. -/
def endsOpen : Concrete → Bool
  | .ifThen .. | .ifElse .. | .lambda .. | .apply .. => true
  | .unary _ _ e => e.endsOpen
  | .binary _ _ _ r => r.endsOpen
  | _ => false

/-- Whether an expression is a conditional without alternative, or ends in one. -/
def endsShort : Concrete → Bool
  | .ifThen .. => true
  | .unary _ _ e => e.endsShort
  | .binary _ _ _ r => r.endsShort
  | .ifElse _ _ _ _ _ e => e.endsShort
  | .lambda _ _ _ _ body => body.endsShort
  | .apply _ _ a => a.endsShort
  | _ => false

/-- An atom has no binary operator at the top. -/
theorem level?_eq_none {c : Concrete} (h : c.isAtom = true) : c.level? = none := by
  cases c with
  | binary => cases h
  | _ => rfl

/-- A binary operator at the top binds more tightly than `level`. -/
def Above (level : Nat) (c : Concrete) : Prop :=
  ∀ k ∈ c.level?, level < k

/-- Every expression is above the lowest level. -/
theorem above_lowestLevel (c : Concrete) : c.Above lowestLevel := by
  intro k hk
  cases c with
  | binary s op l r =>
    obtain rfl := Option.some.inj hk
    exact op.level_pos
  | _ => cases hk

/-- Above the level of unary operators there is no binary operator at the top. -/
theorem Above.level?_eq_none {c : Concrete} (h : c.Above unaryLevel) : c.level? = none := by
  cases c with
  | binary s op l r => exact absurd (h _ rfl) (Nat.lt_asymm op.level_lt_unaryLevel)
  | _ => rfl

/-- The expression follows the grammar; see the head of this file. -/
def Admissible : Concrete → Prop
  | .integer .. | .text .. | .boolean .. | .nil _ | .name .. => True
  | .paren _ _ e => e.Admissible
  | .unary _ _ e => e.level? = none ∧ e.Admissible
  | .binary _ op l r =>
    r.Above op.level ∧ (∀ k ∈ l.level?, op.level ≤ k) ∧ l.endsOpen = false ∧
      l.Admissible ∧ r.Admissible
  | .ifThen _ _ c t => c.Admissible ∧ t.Admissible
  | .ifElse _ _ _ c t e => t.endsShort = false ∧ c.Admissible ∧ t.Admissible ∧ e.Admissible
  | .lambda _ _ _ _ body => body.Admissible
  | .apply _ f a => f.isAtom = true ∧ f.Admissible ∧ a.Admissible

instance (level : Nat) (c : Concrete) : Decidable (c.Above level) :=
  inferInstanceAs (Decidable (∀ k ∈ c.level?, level < k))

instance decidableAdmissible : (c : Concrete) → Decidable c.Admissible
  | .integer .. | .text .. | .boolean .. | .nil _ | .name .. => .isTrue trivial
  | .paren _ _ e => decidableAdmissible e
  | .unary _ _ e =>
    have := decidableAdmissible e
    inferInstanceAs (Decidable (_ ∧ _))
  | .binary _ _ l r =>
    have := decidableAdmissible l
    have := decidableAdmissible r
    inferInstanceAs (Decidable (_ ∧ _ ∧ _ ∧ _ ∧ _))
  | .ifThen _ _ c t =>
    have := decidableAdmissible c
    have := decidableAdmissible t
    inferInstanceAs (Decidable (_ ∧ _))
  | .ifElse _ _ _ c t e =>
    have := decidableAdmissible c
    have := decidableAdmissible t
    have := decidableAdmissible e
    inferInstanceAs (Decidable (_ ∧ _ ∧ _ ∧ _))
  | .lambda _ _ _ _ body => decidableAdmissible body
  | .apply _ f a =>
    have := decidableAdmissible f
    have := decidableAdmissible a
    inferInstanceAs (Decidable (_ ∧ _ ∧ _))

end Concrete

/-! ## Statements and programs -/

/-- A statement as it is written. -/
inductive ConcreteStmt where
  /-- A definition, with the span of its `end` if it has one. -/
  | define (s sname sas : Span) (x : String) (value : Concrete) (closing : Option Span)
  | puts (s : Span) (value : Concrete)
  | expression (value : Concrete)
deriving DecidableEq, Repr

namespace ConcreteStmt

/-- The tokens of a statement, in reading order. -/
def lexemes : ConcreteStmt → List Lexeme
  | .define s sname sas x value closing =>
    ⟨.keyword .define, s⟩ :: ⟨.name x, sname⟩ :: ⟨.keyword .as_, sas⟩ ::
      (value.lexemes ++ (closing.map (⟨.keyword .end_, ·⟩)).toList)
  | .puts s value => ⟨.keyword .puts, s⟩ :: value.lexemes
  | .expression value => value.lexemes

/-- The syntax tree of a statement. -/
def tree : ConcreteStmt → Stmt
  | .define s _ _ x value closing => .define (s.merge (closing.getD value.lastSpan)) x value.tree
  | .puts s value => .puts (s.merge value.tree.span) value.tree
  | .expression value => .expression value.tree

/-- The expression of a statement. -/
def value : ConcreteStmt → Concrete
  | .define _ _ _ _ value _ | .puts _ value | .expression value => value

/-- Whether a statement ends in `end`. -/
def isClosed : ConcreteStmt → Bool
  | .define _ _ _ _ _ closing => closing.isSome
  | .puts .. | .expression _ => false

/-- Whether the first token of a statement is a minus sign. -/
def beginsWithMinus (c : ConcreteStmt) : Bool :=
  c.lexemes.head?.map (·.token) = some (.symbol .minus)

end ConcreteStmt

/-- A program as it is written. -/
abbrev ConcreteProgram := List ConcreteStmt

namespace ConcreteProgram

/-- The tokens of a program, in reading order. -/
def lexemes (cs : ConcreteProgram) : List Lexeme :=
  cs.flatMap ConcreteStmt.lexemes

/-- The syntax trees of the statements of a program. -/
def trees (cs : ConcreteProgram) : Program :=
  cs.map ConcreteStmt.tree

/-- The program follows the grammar; see the head of this file. -/
def Admissible : ConcreteProgram → Prop
  | [] => True
  | c :: cs =>
    c.value.Admissible ∧
      (c.isClosed = false → ∀ next ∈ cs.head?, next.beginsWithMinus = false) ∧
      Admissible cs

instance decidableAdmissible : (cs : ConcreteProgram) → Decidable (Admissible cs)
  | [] => .isTrue trivial
  | _ :: cs =>
    have := decidableAdmissible cs
    inferInstanceAs (Decidable (_ ∧ _ ∧ _))

end ConcreteProgram

end Duet
