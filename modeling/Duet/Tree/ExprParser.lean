import Duet.Tree.Basic
import Duet.Tree.ParseError

/-!
# From tokens to expressions

Expressions are read by operator levels. `operandAtFuel` reads what stands before any operator,
`climbAtFuel` extends an expression to the right by the operators that bind more tightly than
the surrounding level, and `exprAtFuel` does one after the other. Conditionals, functions and
the argument of an application start over at the lowest level, so they reach as far to the
right as they can.

The three functions call each other on what is left of the token list and are bounded by a fuel
argument. Running out of fuel is an outcome of its own. `fits_atFuel` says how much a reading
leaves, and from it follows `exprAtFuel_ne_outOfFuel`: two calls for each token, and two more,
always suffice. `expr` takes that much and shows no fuel.

A node that begins with a token of its own ends where the last token was taken, whatever the spans
of its parts are. So an expression is handed on together with the span of its last token (`Parsed`).
-/

namespace Duet.Parser

/-- The outcome of reading from a list of tokens. -/
inductive Outcome (α : Type) where
  /-- A value was read, and `rest` is left. -/
  | ok (value : α) (rest : List Lexeme)
  /-- Something else was wanted at the front of `rest`. -/
  | fail (wanted : Wanted) (rest : List Lexeme)
  /-- The fuel did not suffice. -/
  | outOfFuel
deriving DecidableEq, Repr

/-- Goes on with the value and the rest of a successful reading. -/
def Outcome.andThen {α β : Type} (o : Outcome α) (f : α → List Lexeme → Outcome β) : Outcome β :=
  match o with
  | .ok value rest => f value rest
  | .fail wanted rest => .fail wanted rest
  | .outOfFuel => .outOfFuel

/-- Reads one given token and yields its span. -/
def expect (wanted : Token) : List Lexeme → Outcome Span
  | [] => .fail (.token wanted) []
  | l :: rest => if l.token = wanted then .ok l.span rest else .fail (.token wanted) (l :: rest)

/-- Reads a name. -/
def expectName : List Lexeme → Outcome String
  | ⟨.name value, _⟩ :: rest => .ok value rest
  | ts => .fail .name ts

/-- The binary operator that a token stands for. -/
def binaryOp? : Token → Option BinaryOp
  | .symbol .plus => some (.arith .add)
  | .symbol .minus => some (.arith .subtract)
  | .symbol .star => some (.arith .multiply)
  | .symbol .slash => some (.arith .divide)
  | .keyword .mod => some (.arith .modulo)
  | .symbol .equal => some .equals
  | .symbol .notEqual => some .notEquals
  | .symbol .greater => some (.arith .greaterThan)
  | .symbol .less => some (.arith .lessThan)
  | .keyword .and_ => some .and
  | .keyword .or_ => some .or
  | _ => none

/-- An expression that has been read, with the span of the last token that was taken for it. -/
structure Parsed where
  /-- The expression. -/
  tree : Expr
  /-- The span of the token taken last. -/
  last : Span
deriving DecidableEq, Repr

/-- What is read from a single token. -/
def Parsed.single (e : Expr) : Parsed := ⟨e, e.span⟩

mutual

/-- Reads an expression whose binary operators all bind more tightly than `level`. -/
def exprAtFuel : Nat → (level : Nat) → List Lexeme → Outcome Parsed
  | 0, _, _ => .outOfFuel
  | n + 1, level, ts => (operandAtFuel n ts).andThen fun left rest => climbAtFuel n level left rest

/-- Reads what may stand before the first binary operator of an expression. -/
def operandAtFuel : Nat → List Lexeme → Outcome Parsed
  | 0, _ => .outOfFuel
  | n + 1, ts =>
    match ts with
    | ⟨.integer value, s⟩ :: rest => .ok (.single (.integer s value)) rest
    | ⟨.text value, s⟩ :: rest => .ok (.single (.text s value)) rest
    | ⟨.keyword .true_, s⟩ :: rest => .ok (.single (.boolean s true)) rest
    | ⟨.keyword .false_, s⟩ :: rest => .ok (.single (.boolean s false)) rest
    | ⟨.keyword .nil, s⟩ :: rest => .ok (.single (.nil s)) rest
    | ⟨.name value, s⟩ :: rest => .ok (.single (.name s value)) rest
    | ⟨.keyword .not_, s⟩ :: rest =>
      (exprAtFuel n unaryLevel rest).andThen fun e rest =>
        .ok ⟨.unary (s.merge e.last) .not e.tree, e.last⟩ rest
    | ⟨.symbol .minus, s⟩ :: rest =>
      (exprAtFuel n unaryLevel rest).andThen fun e rest =>
        .ok ⟨.unary (s.merge e.last) .negate e.tree, e.last⟩ rest
    | ⟨.symbol .openParen, s⟩ :: rest =>
      (exprAtFuel n lowestLevel rest).andThen fun e rest =>
        (expect (.symbol .closeParen) rest).andThen fun close rest =>
          .ok ⟨e.tree.withSpan (s.merge close), close⟩ rest
    | ⟨.keyword .if_, s⟩ :: rest =>
      (exprAtFuel n lowestLevel rest).andThen fun condition rest =>
        (expect (.keyword .then_) rest).andThen fun _ rest =>
          (exprAtFuel n lowestLevel rest).andThen fun consequence rest =>
            match rest with
            | ⟨.keyword .else_, _⟩ :: rest =>
              (exprAtFuel n lowestLevel rest).andThen fun alternative rest =>
                .ok ⟨.ifElse (s.merge alternative.last) condition.tree consequence.tree
                  alternative.tree, alternative.last⟩ rest
            | rest =>
              .ok ⟨.ifThen (s.merge consequence.last) condition.tree consequence.tree,
                consequence.last⟩ rest
    | ⟨.keyword .lambda, s⟩ :: rest =>
      (expectName rest).andThen fun param rest =>
        (expect (.symbol .dot) rest).andThen fun _ rest =>
          (exprAtFuel n lowestLevel rest).andThen fun body rest =>
            .ok ⟨.lambda (s.merge body.last) param body.tree, body.last⟩ rest
    | ts => .fail .expression ts

/-- Extends `left` by the operators that follow and bind more tightly than `level`. An
application binds more tightly than every binary operator, and its argument reaches as far to
the right as it can. -/
def climbAtFuel : Nat → (level : Nat) → (left : Parsed) → List Lexeme → Outcome Parsed
  | 0, _, _, _ => .outOfFuel
  | n + 1, level, left, ts =>
    match ts with
    | [] => .ok left []
    | ⟨.symbol .pipe, _⟩ :: rest =>
      (exprAtFuel n lowestLevel rest).andThen fun argument rest =>
        climbAtFuel n level
          ⟨.apply (left.tree.span.merge argument.tree.span) left.tree argument.tree, argument.last⟩
          rest
    | ⟨token, s⟩ :: rest =>
      match binaryOp? token with
      | none => .ok left (⟨token, s⟩ :: rest)
      | some op =>
        if level < op.level then
          (exprAtFuel n op.level rest).andThen fun right rest =>
            climbAtFuel n level
              ⟨.binary (left.tree.span.merge right.tree.span) op left.tree right.tree, right.last⟩
              rest
        else .ok left (⟨token, s⟩ :: rest)

end

/-! ## How much a reading leaves -/

/-- A reading that, if it succeeds, leaves fewer than `left` tokens, and that stops with at most
`size` tokens in front of it if it fails. -/
def Outcome.Fits {α : Type} (o : Outcome α) (left size : Nat) : Prop :=
  match o with
  | .ok _ rest => rest.length < left
  | .fail _ rest => rest.length ≤ size
  | .outOfFuel => True

/-- A reading that fits into less fits into more. -/
theorem Outcome.Fits.weaken {α : Type} {o : Outcome α} {left size left' size' : Nat}
    (h : o.Fits left size) (hleft : left ≤ left') (hsize : size ≤ size') : o.Fits left' size' := by
  cases o <;> simp only [Fits] at * <;> omega

/-- A reading of fewer tokens fits into more. -/
theorem Outcome.Fits.of_lt {α : Type} {o : Outcome α} {size size' : Nat} (h : o.Fits size size)
    (hlt : size < size') : o.Fits size' size' :=
  h.weaken (Nat.le_of_lt hlt) (Nat.le_of_lt hlt)

/-- What follows a reading starts with fewer tokens, and fits if it does from there on. -/
theorem Outcome.Fits.andThen {α β : Type} {o : Outcome α} {f : α → List Lexeme → Outcome β}
    {left left' size : Nat} (h : o.Fits left size)
    (hf : ∀ v rest, rest.length < left → (f v rest).Fits left' size) :
    (o.andThen f).Fits left' size := by
  cases o with
  | ok v rest => exact hf v rest h
  | fail _ _ => exact h
  | outOfFuel => trivial

/-- A token that is asked for takes one token away. -/
theorem fits_expect (wanted : Token) (ts : List Lexeme) :
    (expect wanted ts).Fits ts.length ts.length := by
  cases ts with
  | nil => simp [expect, Outcome.Fits]
  | cons l rest =>
    simp only [expect]
    split <;> simp [Outcome.Fits]

/-- A name that is asked for takes one token away. -/
theorem fits_expectName (ts : List Lexeme) : (expectName ts).Fits ts.length ts.length := by
  unfold expectName
  split <;> simp [Outcome.Fits]

/-- An expression and an operand take at least one token. -/
theorem fits_atFuel (n : Nat) :
    (∀ level ts, (exprAtFuel n level ts).Fits ts.length ts.length) ∧
    (∀ ts, (operandAtFuel n ts).Fits ts.length ts.length) ∧
    (∀ level left ts, (climbAtFuel n level left ts).Fits (ts.length + 1) ts.length) := by
  induction n with
  | zero => simp [exprAtFuel, operandAtFuel, climbAtFuel, Outcome.Fits]
  | succ n ih =>
    obtain ⟨hexpr, hoperand, hclimb⟩ := ih
    have hinner (level : Nat) (l : Lexeme) (rest : List Lexeme) :
        (exprAtFuel n level rest).Fits (l :: rest).length (l :: rest).length :=
      (hexpr level rest).of_lt (Nat.lt_succ_self _)
    refine ⟨?_, ?_, ?_⟩
    · intro level ts
      simp only [exprAtFuel]
      refine (hoperand ts).andThen fun e rest hrest => ?_
      exact (hclimb level e rest).weaken (by omega) (by omega)
    · intro ts
      unfold operandAtFuel
      split
      case h_7 | h_8 => exact (hinner _ _ _).andThen fun e rest h => h
      case h_9 =>
        refine (hinner _ _ _).andThen fun e rest h => ?_
        exact ((fits_expect _ rest).of_lt h).andThen fun _ rest h => h
      case h_10 =>
        refine (hinner _ _ _).andThen fun c rest h => ?_
        refine ((fits_expect _ rest).of_lt h).andThen fun _ rest h => ?_
        refine ((hexpr _ rest).of_lt h).andThen fun t rest h => ?_
        split
        · rename_i s tail
          have htail := Nat.lt_trans (Nat.lt_succ_self _) h
          exact ((hexpr _ tail).of_lt htail).andThen fun e rest h => h
        · exact h
      case h_11 =>
        refine ((fits_expectName _).of_lt (Nat.lt_succ_self _)).andThen fun p rest h => ?_
        refine ((fits_expect _ rest).of_lt h).andThen fun _ rest h => ?_
        exact ((hexpr _ rest).of_lt h).andThen fun e rest h => h
      all_goals simp [Outcome.Fits]
    · intro level left ts
      unfold climbAtFuel
      split
      · simp [Outcome.Fits]
      · refine (hinner _ _ _).andThen fun a rest h => ?_
        exact (hclimb _ _ rest).weaken (by omega) (by omega)
      · split
        · simp [Outcome.Fits]
        · split
          · refine (hinner _ _ _).andThen fun r rest h => ?_
            exact (hclimb _ _ rest).weaken (by omega) (by omega)
          · simp [Outcome.Fits]

/-! ## How much fuel suffices -/

/-- Two readings in a row have fuel enough if each of them has. -/
theorem Outcome.andThen_ne_outOfFuel {α β : Type} {o : Outcome α}
    {f : α → List Lexeme → Outcome β} {left size : Nat} (h : o ≠ .outOfFuel)
    (hfits : o.Fits left size) (hf : ∀ v rest, rest.length < left → f v rest ≠ .outOfFuel) :
    o.andThen f ≠ .outOfFuel := by
  cases o with
  | ok v rest => exact hf v rest hfits
  | fail _ _ => simp [andThen]
  | outOfFuel => contradiction

/-- Asking for a token takes no fuel. -/
theorem expect_ne_outOfFuel (wanted : Token) (ts : List Lexeme) :
    expect wanted ts ≠ .outOfFuel := by
  cases ts with
  | nil => simp [expect]
  | cons l rest =>
    simp only [expect]
    split <;> simp

/-- Asking for a name takes no fuel. -/
theorem expectName_ne_outOfFuel (ts : List Lexeme) : expectName ts ≠ .outOfFuel := by
  unfold expectName
  split <;> simp

/-- Two calls for each token, and two more, suffice for an expression. -/
theorem ne_outOfFuel_atFuel (n : Nat) :
    (∀ level ts, 2 * ts.length + 2 ≤ n → exprAtFuel n level ts ≠ .outOfFuel) ∧
    (∀ ts, 2 * ts.length + 1 ≤ n → operandAtFuel n ts ≠ .outOfFuel) ∧
    (∀ level left ts, 2 * ts.length + 1 ≤ n → climbAtFuel n level left ts ≠ .outOfFuel) := by
  -- the readers call one another, so all three bounds go through one induction
  induction n with
  | zero => simp
  | succ n ih =>
    obtain ⟨hexpr, hoperand, hclimb⟩ := ih
    obtain ⟨fexpr, foperand, fclimb⟩ := fits_atFuel n
    refine ⟨?_, ?_, ?_⟩
    · intro level ts hn
      simp only [exprAtFuel]
      refine Outcome.andThen_ne_outOfFuel (hoperand ts (by omega)) (foperand ts) ?_
      intro e rest hrest
      exact hclimb level e rest (by omega)
    · intro ts hn
      unfold operandAtFuel
      split
      case h_7 | h_8 =>
        simp only [List.length_cons] at hn
        refine Outcome.andThen_ne_outOfFuel (hexpr _ _ (by omega)) (fexpr _ _) ?_
        simp
      case h_9 =>
        simp only [List.length_cons] at hn
        refine Outcome.andThen_ne_outOfFuel (hexpr _ _ (by omega)) (fexpr _ _) ?_
        intro e rest hrest
        refine Outcome.andThen_ne_outOfFuel (expect_ne_outOfFuel _ _) (fits_expect _ _) ?_
        simp
      case h_10 =>
        simp only [List.length_cons] at hn
        refine Outcome.andThen_ne_outOfFuel (hexpr _ _ (by omega)) (fexpr _ _) ?_
        intro c rest hrest
        refine Outcome.andThen_ne_outOfFuel (expect_ne_outOfFuel _ _) (fits_expect _ _) ?_
        intro _ rest hrest
        refine Outcome.andThen_ne_outOfFuel (hexpr _ _ (by omega)) (fexpr _ _) ?_
        intro t rest hrest
        split
        · simp only [List.length_cons] at hrest
          refine Outcome.andThen_ne_outOfFuel (hexpr _ _ (by omega)) (fexpr _ _) ?_
          simp
        · simp
      case h_11 =>
        simp only [List.length_cons] at hn
        refine Outcome.andThen_ne_outOfFuel (expectName_ne_outOfFuel _) (fits_expectName _) ?_
        intro p rest hrest
        refine Outcome.andThen_ne_outOfFuel (expect_ne_outOfFuel _ _) (fits_expect _ _) ?_
        intro _ rest hrest
        refine Outcome.andThen_ne_outOfFuel (hexpr _ _ (by omega)) (fexpr _ _) ?_
        simp
      all_goals simp
    · intro level left ts hn
      unfold climbAtFuel
      split
      · simp
      · simp only [List.length_cons] at hn
        refine Outcome.andThen_ne_outOfFuel (hexpr _ _ (by omega)) (fexpr _ _) ?_
        intro a rest hrest
        exact hclimb _ _ rest (by omega)
      · split
        · simp
        · split
          · simp only [List.length_cons] at hn
            refine Outcome.andThen_ne_outOfFuel (hexpr _ _ (by omega)) (fexpr _ _) ?_
            intro r rest hrest
            exact hclimb _ _ rest (by omega)
          · simp

/-- Enough fuel to read an expression from a list of tokens. -/
def fuelFor (ts : List Lexeme) : Nat := 2 * ts.length + 2

/-- The fuel for a list of tokens suffices. -/
theorem exprAtFuel_ne_outOfFuel (level : Nat) (ts : List Lexeme) :
    exprAtFuel (fuelFor ts) level ts ≠ .outOfFuel :=
  (ne_outOfFuel_atFuel _).1 level ts (Nat.le_refl _)

/-- Reads an expression. -/
def expr (ts : List Lexeme) : Outcome Parsed :=
  exprAtFuel (fuelFor ts) lowestLevel ts

end Duet.Parser
