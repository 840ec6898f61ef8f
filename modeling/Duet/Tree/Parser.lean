import Duet.Tree.ExprParser

/-!
# From tokens to programs

A program is read statement by statement. After an error the reader skips to the next `define`
or `puts` and goes on, so that one run can report several errors; it gives up at twenty. A
program with an error anywhere is not read at all.

Every statement takes at least one token, and so does every error, which is why reading ends.
-/

namespace Duet.Parser

/-- Reads a statement. -/
def stmt : List Lexeme → Outcome Stmt
  | ⟨.keyword .define, s⟩ :: rest =>
    (expectName rest).andThen fun name rest =>
      (expect (.keyword .as_) rest).andThen fun _ rest =>
        (expr rest).andThen fun value rest =>
          match rest with
          | ⟨.keyword .end_, close⟩ :: rest => .ok (.define (s.merge close) name value.tree) rest
          | rest => .ok (.define (s.merge value.last) name value.tree) rest
  | ⟨.keyword .puts, s⟩ :: rest =>
    (expr rest).andThen fun value rest => .ok (.puts (s.merge value.tree.span) value.tree) rest
  | ts => (expr ts).andThen fun value rest => .ok (.expression value.tree) rest

/-- An expression takes at least one token. -/
theorem fits_expr (ts : List Lexeme) : (expr ts).Fits ts.length ts.length :=
  (fits_atFuel _).1 _ _

/-- A statement takes at least one token. -/
theorem fits_stmt (ts : List Lexeme) : (stmt ts).Fits ts.length ts.length := by
  unfold stmt
  split
  · refine ((fits_expectName _).of_lt (Nat.lt_succ_self _)).andThen fun x rest h => ?_
    refine ((fits_expect _ rest).of_lt h).andThen fun _ rest h => ?_
    refine ((fits_expr rest).of_lt h).andThen fun e rest h => ?_
    split
    · exact Nat.lt_trans (Nat.lt_succ_self _) h
    · exact h
  · exact ((fits_expr _).of_lt (Nat.lt_succ_self _)).andThen fun e rest h => h
  · exact (fits_expr _).andThen fun e rest h => h

/-- An expression is read with fuel enough. -/
theorem expr_ne_outOfFuel (ts : List Lexeme) : expr ts ≠ .outOfFuel :=
  exprAtFuel_ne_outOfFuel _ _

/-- Reading a statement never runs out of fuel. -/
theorem stmt_ne_outOfFuel (ts : List Lexeme) : stmt ts ≠ .outOfFuel := by
  unfold stmt
  split
  · refine Outcome.andThen_ne_outOfFuel (expectName_ne_outOfFuel _) (fits_expectName _) ?_
    intro x rest _
    refine Outcome.andThen_ne_outOfFuel (expect_ne_outOfFuel _ _) (fits_expect _ _) ?_
    intro _ rest _
    refine Outcome.andThen_ne_outOfFuel (expr_ne_outOfFuel _) (fits_expr _) ?_
    intro e rest _
    split <;> simp
  · refine Outcome.andThen_ne_outOfFuel (expr_ne_outOfFuel _) (fits_expr _) ?_
    simp
  · refine Outcome.andThen_ne_outOfFuel (expr_ne_outOfFuel _) (fits_expr _) ?_
    simp

/-! ## Recovery -/

/-- Whether a token begins a statement that is not an expression. -/
def startsStmt (l : Lexeme) : Bool :=
  l.token = .keyword .define || l.token = .keyword .puts

/-- Where reading goes on after an error: at the first `define` or `puts` at or after the place
of the error, and past the first token of the statement that failed. -/
def resume (failed rest : List Lexeme) : List Lexeme :=
  (if rest.length = failed.length then rest.tail else rest).dropWhile (!startsStmt ·)

/-- Going on after an error leaves out at least one token. -/
theorem length_resume_lt {failed rest : List Lexeme} (hpos : failed ≠ [])
    (hle : rest.length ≤ failed.length) : (resume failed rest).length < failed.length := by
  have hdrop (ts : List Lexeme) : (ts.dropWhile (!startsStmt ·)).length ≤ ts.length :=
    (List.dropWhile_sublist _).length_le
  have := List.length_pos_iff.mpr hpos
  unfold resume
  split
  · have := hdrop rest.tail
    simp at this ⊢
    omega
  · have := hdrop rest
    omega

/-- The most errors that are reported. -/
def maxErrors : Nat := 20

/-- The empty span after the last token. -/
def endSpan (ts : List Lexeme) : Span :=
  match ts.getLast? with
  | some l => .empty l.span.stop
  | none => .empty 0

/-- The error of wanting something else at the front of `rest`, where `all` is the whole list of
tokens. -/
def errorAt (all : List Lexeme) (wanted : Wanted) (rest : List Lexeme) : ParseError where
  position := all.length - rest.length
  span := match rest with
    | l :: _ => l.span
    | [] => endSpan all
  wanted := wanted
  found := rest.head?.map (·.token)

/-- Reads statements until the input ends or `budget` errors have been met. -/
def stmts (all : List Lexeme) (budget : Nat) (ts : List Lexeme) : Program × List ParseError :=
  if _hend : ts = [] ∨ budget = 0 then ([], [])
  else
    match h : stmt ts with
    | .ok statement rest =>
      let (statements, errors) := stmts all budget rest
      (statement :: statements, errors)
    | .fail wanted rest =>
      let (statements, errors) := stmts all (budget - 1) (resume ts rest)
      (statements, errorAt all wanted rest :: errors)
    | .outOfFuel => absurd h (stmt_ne_outOfFuel ts)
termination_by ts.length
decreasing_by
  · simpa [h, Outcome.Fits] using fits_stmt ts
  · exact length_resume_lt (by simp_all) (by simpa [h, Outcome.Fits] using fits_stmt ts)

/-- There are no statements where there are no tokens. -/
theorem stmts_nil (all : List Lexeme) (budget : Nat) : stmts all budget [] = ([], []) := by
  unfold stmts
  simp

/-- Nothing is read once the budget is used up. -/
theorem stmts_zero (all ts : List Lexeme) : stmts all 0 ts = ([], []) := by
  unfold stmts
  simp

/-- A statement that is read comes before the others. -/
theorem stmts_of_ok {all ts rest : List Lexeme} {budget : Nat} {statement : Stmt}
    (hpos : 0 < budget) (h : stmt ts = .ok statement rest) :
    stmts all budget ts =
      (statement :: (stmts all budget rest).1, (stmts all budget rest).2) := by
  have hne : ts ≠ [] := by
    rintro rfl
    have := fits_stmt []
    simp [h, Outcome.Fits] at this
  rw [stmts]
  split
  · simp_all
  · split <;> simp_all

/-- An error comes before those that follow it. -/
theorem stmts_of_fail {all ts rest : List Lexeme} {budget : Nat} {wanted : Wanted}
    (hne : ts ≠ []) (hpos : 0 < budget) (h : stmt ts = .fail wanted rest) :
    stmts all budget ts =
      ((stmts all (budget - 1) (resume ts rest)).1,
        errorAt all wanted rest :: (stmts all (budget - 1) (resume ts rest)).2) := by
  rw [stmts]
  split
  · simp_all
  · split <;> simp_all

end Duet.Parser

namespace Duet

/-- Reads a whole program; the result is the list of errors as soon as there was one. -/
def parse (tokens : List Lexeme) : Except (List ParseError) Program :=
  match Parser.stmts tokens Parser.maxErrors tokens with
  | (program, []) => .ok program
  | (_, errors) => .error errors

end Duet
