import Duet.Text.Span
import Duet.Tree.Printer

/-!
# The evaluator: values and errors

The evaluator works on syntax trees directly, and so its values include texts and functions that
remember the parameters around them. A closure is equal only to itself; each evaluation of a
function expression makes a new one, and a number tells them apart.
-/

namespace Duet.Evaluator

/-- A value of the evaluator. -/
inductive Value where
  | integer (value : Int)
  | boolean (value : Bool)
  | nil
  | text (value : String)
  /-- A function, its identity, and the parameters of the functions around it, the innermost
  first. -/
  | closure (id : Nat) (param : String) (body : Expr) (env : List (String × Value))
deriving Repr

/-- Names with their values; the first entry of a name counts. -/
abbrev Env := List (String × Value)

namespace Value

/-- The value of the result of an operator on integers. -/
def ofArith : ArithResult → Value
  | .integer value => .integer value
  | .boolean value => .boolean value

/-- What messages call a value of this form. -/
def typeName : Value → String
  | .integer _ => "integer"
  | .boolean _ => "boolean"
  | .nil => "nil"
  | .text _ => "string"
  | .closure .. => "function"

/-- Whether a value counts as true: all but nil and false do. -/
def isTruthy : Value → Bool
  | .nil | .boolean false => false
  | _ => true

/-- Whether a value is exactly false. -/
def isFalse : Value → Bool
  | .boolean false => true
  | _ => false

/-- Whether two values are equal; closures are compared by identity. -/
def same : Value → Value → Bool
  | .integer a, .integer b => a = b
  | .boolean a, .boolean b => a = b
  | .nil, .nil => true
  | .text a, .text b => a = b
  | .closure i _ _ _, .closure j _ _ _ => i = j
  | _, _ => false

/-- How a value is shown: a text without quotes, a function as source text. -/
def display : Value → String
  | .integer value => toString value
  | .boolean value => if value then "true" else "false"
  | .nil => "NIL"
  | .text value => value
  | .closure _ param body _ => "lambda " ++ param ++ " . " ++ body.print

end Value

/-- Why an evaluation fails. -/
inductive Cause where
  | unboundName (name : String)
  | typeMismatch (op : String) (found : String)
  | divisionByZero
  | notCallable (found : String)
  /-- An operator that is not one on integers was given two integers to compute with. -/
  | notArithmetic (op : String)
deriving DecidableEq, Repr

/-- A failure and the expression at fault. -/
structure Error where
  cause : Cause
  span : Span
deriving DecidableEq, Repr

namespace Error

/-- The catalogue code of an error. -/
def code (e : Error) : String :=
  match e.cause with
  | .typeMismatch .. => "MAL-R002"
  | .divisionByZero => "MAL-R003"
  | .notCallable _ => "MAL-R004"
  | .notArithmetic _ => "MAL-R006"
  | .unboundName _ => "MAL-R007"

/-- The text of an error. -/
def message (e : Error) : String :=
  match e.cause with
  | .unboundName name => "identifier not found: " ++ name
  | .typeMismatch op found => "'" ++ op ++ "' expects integer operands, found " ++ found
  | .divisionByZero => "division by zero"
  | .notCallable found => "cannot call a value of type " ++ found
  | .notArithmetic op => "'" ++ op ++ "' reached integer arithmetic"

/-- The text of an error when it stands alone. -/
def display (e : Error) : String :=
  "Runtime error: " ++ e.message

end Error

end Duet.Evaluator
