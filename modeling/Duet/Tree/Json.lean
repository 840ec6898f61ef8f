import Duet.Text.Json
import Duet.Tree.Basic

/-!
# Syntax trees as JSON

A node is an object with one field, named for the form of the node, which holds its parts in a
fixed order. Forms without parts, and operators, are plain strings. Spans are left out, and an
integer is written as a string of its digits, since it may exceed what readers of JSON accept
as a number.
-/

namespace Duet

/-- The name of a unary operator in a tree. -/
def UnaryOp.label : UnaryOp → String
  | .not => "Not"
  | .negate => "Negate"

/-- The name of a binary operator in a tree. -/
def BinaryOp.label : BinaryOp → String
  | .arith .add => "Add"
  | .arith .subtract => "Subtract"
  | .arith .multiply => "Multiply"
  | .arith .divide => "Divide"
  | .arith .modulo => "Modulo"
  | .equals => "Equals"
  | .notEquals => "NotEquals"
  | .arith .greaterThan => "GreaterThan"
  | .arith .lessThan => "LessThan"
  | .and => "And"
  | .or => "Or"

/-- A node with parts. -/
def Json.node (form : String) (parts : List (String × Json)) : Json :=
  .object [(form, .object parts)]

/-- The tree of an expression. -/
def Expr.toJson : Expr → Json
  | .integer _ value => .node "Integer" [("value", .string (toString value))]
  | .text _ value => .node "Text" [("value", .string value)]
  | .boolean _ value => .node "Bool" [("value", .bool value)]
  | .nil _ => .string "Nil"
  | .name _ x => .node "Ident" [("name", .string x)]
  | .unary _ op e => .node "Prefix" [("op", .string op.label), ("operand", e.toJson)]
  | .binary _ op l r =>
    .node "Infix" [("op", .string op.label), ("left", l.toJson), ("right", r.toJson)]
  | .ifThen _ c t =>
    .node "If" [("condition", c.toJson), ("consequence", t.toJson), ("alternative", .null)]
  | .ifElse _ c t e =>
    .node "If" [("condition", c.toJson), ("consequence", t.toJson), ("alternative", e.toJson)]
  | .lambda _ param body => .node "Lambda" [("param", .string param), ("body", body.toJson)]
  | .apply _ f a => .node "Apply" [("function", f.toJson), ("argument", a.toJson)]

/-- The tree of a statement. -/
def Stmt.toJson : Stmt → Json
  | .define _ x e => .node "Define" [("name", .string x), ("value", e.toJson)]
  | .puts _ e => .node "Puts" [("value", e.toJson)]
  | .expression e => .node "Expression" [("value", e.toJson)]

/-- The tree of a program. -/
def Program.toJson (p : Program) : Json :=
  .object [("statements", .array (p.map Stmt.toJson))]

end Duet
