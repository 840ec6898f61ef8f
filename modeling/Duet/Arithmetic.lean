/-!
# Integer operators

The seven operators that take two integers of any size. Division goes toward zero and the
remainder has the sign of the dividend; both have no result when the divisor is zero. The
comparisons yield a boolean.
-/

namespace Duet

/-- The operators on two integers. -/
inductive ArithOp where
  | add | subtract | multiply | divide | modulo | greaterThan | lessThan
deriving DecidableEq, Repr

/-- What an operator on integers yields. -/
inductive ArithResult where
  | integer (value : Int)
  | boolean (value : Bool)
deriving DecidableEq, Repr

namespace ArithOp

/-- The result of an operator; nothing for a division by zero. -/
def result? : ArithOp → Int → Int → Option ArithResult
  | .add, l, r => some (.integer (l + r))
  | .subtract, l, r => some (.integer (l - r))
  | .multiply, l, r => some (.integer (l * r))
  | .divide, l, r => if r = 0 then none else some (.integer (l.tdiv r))
  | .modulo, l, r => if r = 0 then none else some (.integer (l.tmod r))
  | .greaterThan, l, r => some (.boolean (decide (r < l)))
  | .lessThan, l, r => some (.boolean (decide (l < r)))

end ArithOp

end Duet
