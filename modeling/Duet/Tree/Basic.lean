import Duet.Arithmetic
import Duet.Text.Span

/-!
# Syntax trees

An expression is a literal, a name, an operator applied to its operands, a conditional with or
without an alternative, a function of one parameter, or an application. Every node carries the
span of the source it was read from; parentheses leave no node of their own and only widen the
span of the expression inside them.

A program is a list of statements: a definition of a global name, an explicit output, or an
expression whose value is shown as well.
-/

namespace Duet

/-- The operators with one operand. -/
inductive UnaryOp where
  | not | negate
deriving DecidableEq, Repr

/-- How a unary operator is written. -/
def UnaryOp.symbol : UnaryOp → String
  | .not => "not"
  | .negate => "-"

/-- The operators with two operands. -/
inductive BinaryOp where
  | arith (op : ArithOp)
  | equals | notEquals
  | and | or
deriving DecidableEq, Repr

namespace BinaryOp

/-- How a binary operator is written. -/
def symbol : BinaryOp → String
  | .arith .add => "+"
  | .arith .subtract => "-"
  | .arith .multiply => "*"
  | .arith .divide => "/"
  | .arith .modulo => "mod"
  | .arith .greaterThan => ">"
  | .arith .lessThan => "<"
  | .equals => "="
  | .notEquals => "~="
  | .and => "and"
  | .or => "or"

/-- How tightly a binary operator binds. Operators of one level group to the left. -/
def level : BinaryOp → Nat
  | .and | .or => 1
  | .equals | .notEquals => 2
  | .arith .greaterThan | .arith .lessThan => 3
  | .arith .add | .arith .subtract => 4
  | .arith .multiply | .arith .divide | .arith .modulo => 5

end BinaryOp

/-- The level of a place where any expression may stand. -/
def lowestLevel : Nat := 0

/-- The level of the operand of a unary operator: above every binary operator. -/
def unaryLevel : Nat := 6

/-- An expression with the spans of its nodes. -/
inductive Expr where
  /-- A literal has no sign, as its token has none; a negative number is a negation of one. -/
  | integer (span : Span) (value : Nat)
  | text (span : Span) (value : String)
  | boolean (span : Span) (value : Bool)
  | nil (span : Span)
  | name (span : Span) (name : String)
  | unary (span : Span) (op : UnaryOp) (operand : Expr)
  | binary (span : Span) (op : BinaryOp) (left right : Expr)
  | ifThen (span : Span) (condition consequence : Expr)
  | ifElse (span : Span) (condition consequence alternative : Expr)
  | lambda (span : Span) (param : String) (body : Expr)
  | apply (span : Span) (function argument : Expr)
deriving DecidableEq, Repr

namespace Expr

/-- The span of the outermost node. -/
def span : Expr → Span
  | .integer s _ | .text s _ | .boolean s _ | .nil s | .name s _ | .unary s _ _ | .binary s _ _ _
  | .ifThen s _ _ | .ifElse s _ _ _ | .lambda s _ _ | .apply s _ _ => s

/-- The expression with another span at its outermost node. -/
def withSpan (s : Span) : Expr → Expr
  | .integer _ v => .integer s v
  | .text _ v => .text s v
  | .boolean _ v => .boolean s v
  | .nil _ => .nil s
  | .name _ n => .name s n
  | .unary _ op e => .unary s op e
  | .binary _ op l r => .binary s op l r
  | .ifThen _ c t => .ifThen s c t
  | .ifElse _ c t e => .ifElse s c t e
  | .lambda _ p b => .lambda s p b
  | .apply _ f a => .apply s f a

@[simp] theorem span_withSpan (s : Span) (e : Expr) : (e.withSpan s).span = s := by
  cases e <;> rfl

/-- The expression with every span replaced by its image under `f`. -/
def mapSpan (f : Span → Span) : Expr → Expr
  | .integer s v => .integer (f s) v
  | .text s v => .text (f s) v
  | .boolean s v => .boolean (f s) v
  | .nil s => .nil (f s)
  | .name s n => .name (f s) n
  | .unary s op e => .unary (f s) op (e.mapSpan f)
  | .binary s op l r => .binary (f s) op (l.mapSpan f) (r.mapSpan f)
  | .ifThen s c t => .ifThen (f s) (c.mapSpan f) (t.mapSpan f)
  | .ifElse s c t e => .ifElse (f s) (c.mapSpan f) (t.mapSpan f) (e.mapSpan f)
  | .lambda s p b => .lambda (f s) p (b.mapSpan f)
  | .apply s g a => .apply (f s) (g.mapSpan f) (a.mapSpan f)

/-- The spans of all nodes, a node before its parts and the parts in reading order, except that
the function of an application comes before its argument. -/
def spans : Expr → List Span
  | .integer s _ | .text s _ | .boolean s _ | .nil s | .name s _ => [s]
  | .unary s _ e => s :: e.spans
  | .binary s _ l r => s :: (l.spans ++ r.spans)
  | .ifThen s c t => s :: (c.spans ++ t.spans)
  | .ifElse s c t e => s :: (c.spans ++ t.spans ++ e.spans)
  | .lambda s _ b => s :: b.spans
  | .apply s g a => s :: (g.spans ++ a.spans)

/-- What messages call an expression of this form. -/
def kindName : Expr → String
  | .integer .. => "integer literal"
  | .text .. => "string literal"
  | .boolean .. => "boolean literal"
  | .nil _ => "nil literal"
  | .name .. => "identifier"
  | .unary .. => "prefix expression"
  | .binary .. => "infix expression"
  | .ifThen .. | .ifElse .. => "if expression"
  | .lambda .. => "lambda"
  | .apply .. => "application"

end Expr

/-- A statement. The span of an expression statement is that of its expression. -/
inductive Stmt where
  | define (span : Span) (name : String) (value : Expr)
  | puts (span : Span) (value : Expr)
  | expression (value : Expr)
deriving DecidableEq, Repr

namespace Stmt

/-- The span of the whole statement. -/
def span : Stmt → Span
  | .define s _ _ | .puts s _ => s
  | .expression e => e.span

/-- The expression of a statement. -/
def value : Stmt → Expr
  | .define _ _ e | .puts _ e | .expression e => e

/-- The statement with every span replaced by its image under `f`. -/
def mapSpan (f : Span → Span) : Stmt → Stmt
  | .define s n e => .define (f s) n (e.mapSpan f)
  | .puts s e => .puts (f s) (e.mapSpan f)
  | .expression e => .expression (e.mapSpan f)

/-- The span of the statement and then those of its expression. -/
def spans (s : Stmt) : List Span :=
  s.span :: s.value.spans

end Stmt

/-- A program: its statements in order. -/
abbrev Program := List Stmt

end Duet
