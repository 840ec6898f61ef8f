import Duet.Tree.Basic

/-!
# From syntax trees to text

`Expr.print` writes an expression on one line, with the parentheses that its operators need.
An expression that reaches as far to the right as it can (a conditional, a function, an
application) is wrapped wherever it is an operand. A binary operator is wrapped under a tighter
one, under one of its own level on the right, and under every unary operator.

The branches of a conditional are written bare, so an `if` without alternative inside the
consequence of one that has an alternative takes over that alternative when the text is read
again.
-/

namespace Duet

namespace Expr

/-- Whether the expression reaches as far to the right as it can. -/
def isOpenEnded : Expr → Bool
  | .ifThen .. | .ifElse .. | .lambda .. | .apply .. => true
  | _ => false

/-- Whether the expression needs parentheses as an operand of a binary operator of the given
level. -/
def wrapsUnderBinary (level : Nat) (onRight : Bool) (e : Expr) : Bool :=
  match e with
  | .binary _ op _ _ => op.level < level || (op.level = level && onRight)
  | e => e.isOpenEnded

/-- Whether the expression needs parentheses as the operand of a unary operator. -/
def wrapsUnderUnary (e : Expr) : Bool :=
  match e with
  | .binary .. => true
  | e => e.isOpenEnded

/-- Whether the expression needs parentheses as the function of an application. -/
def wrapsAsFunction (e : Expr) : Bool :=
  match e with
  | .unary .. | .binary .. => true
  | e => e.isOpenEnded

/-- A text in parentheses if they are needed. -/
def wrapIf (wrap : Bool) (s : String) : String :=
  if wrap then "(" ++ s ++ ")" else s

/-- The expression as source text on one line. -/
def print : Expr → String
  | .integer _ value => toString value
  | .text _ value => "\"" ++ value ++ "\""
  | .boolean _ value => if value then "true" else "false"
  | .nil _ => "nil"
  | .name _ x => x
  | .unary _ op e =>
    let blank := match op with
      | .not => " "
      | .negate => ""
    op.symbol ++ blank ++ wrapIf e.wrapsUnderUnary e.print
  | .binary _ op l r =>
    wrapIf (l.wrapsUnderBinary op.level false) l.print ++ " " ++ op.symbol ++ " "
      ++ wrapIf (r.wrapsUnderBinary op.level true) r.print
  | .ifThen _ c t => "if " ++ c.print ++ " then " ++ t.print
  | .ifElse _ c t e => "if " ++ c.print ++ " then " ++ t.print ++ " else " ++ e.print
  | .lambda _ param body => "lambda " ++ param ++ " . " ++ body.print
  | .apply _ f a => wrapIf f.wrapsAsFunction f.print ++ " | " ++ a.print

end Expr

end Duet
