import Duet.Proofs.ParserDerivations

/-!
# Derivations of errors

Where the reader fails, it has read some things, is inside of others, and meets a token that cannot
come next. `Misreads` is this as a relation, without fuel: a reading comes to a part of its own
(`Enters`), this comes to a part of its own, and so on, and the innermost one refuses the next token
(`Refuses`).

* `Reads.exists_append`: a reading depends on what it has read, and besides on the next token only.
* `misreads_of_readAtFuel`: where the reader fails, there is a derivation of the error.
* `Misreads.exists_append`: an error depends on what has been read and on the next token only; and
  without that token, something could have followed that makes the expression complete.
* `MisreadsStmt`: the same for statements.
-/

namespace Duet.Parser

/-! ## The next token -/

/-- The next token is not the given one. -/
def Lacks (t : Token) (ts : List Lexeme) : Prop :=
  ∀ l ∈ ts.head?, l.token ≠ t

/-- The next token is not a name. -/
def LacksName (ts : List Lexeme) : Prop :=
  ∀ l ∈ ts.head?, ∀ x, l.token ≠ .name x

/-- Only the next token counts for whether a token is lacking. -/
theorem Lacks.of_head? {t : Token} {rest rest' : List Lexeme} (h : Lacks t rest)
    (hhead : rest'.head? = rest.head?) : Lacks t rest' := by
  rwa [Lacks, hhead]

/-- Only the next token counts for whether a name is lacking. -/
theorem LacksName.of_head? {rest rest' : List Lexeme} (h : LacksName rest)
    (hhead : rest'.head? = rest.head?) : LacksName rest' := by
  rwa [LacksName, hhead]

/-- What ends in front of `rest` ends in front of `rest'` as well. -/
structure EndsLike (rest rest' : List Lexeme) : Prop where
  stops : ∀ level, Stops level rest → Stops level rest'
  noElse : NoElse rest → NoElse rest'

/-- The next token is not one that an expression would take at its end. -/
structure Ends (rest : List Lexeme) : Prop where
  stops : Stops lowestLevel rest
  noElse : NoElse rest

/-- Only the next token counts for where something ends. -/
theorem EndsLike.of_head? {rest rest' : List Lexeme} (h : rest'.head? = rest.head?) :
    EndsLike rest rest' := by
  refine ⟨fun level hstops => ?_, fun helse => ?_⟩
  · rwa [Stops, h]
  · rwa [NoElse, h]

/-- Where every expression ends, everything ends that ends elsewhere. -/
theorem Ends.like {rest' : List Lexeme} (h : Ends rest') (rest : List Lexeme) :
    EndsLike rest rest' :=
  ⟨fun level _ => h.stops.mono (Nat.zero_le level), fun _ => h.noElse⟩

/-- What follows some tokens may be exchanged if it ends them alike. -/
theorem EndsLike.append {rest rest' : List Lexeme} (h : EndsLike rest rest') (pre : List Lexeme) :
    EndsLike (pre ++ rest) (pre ++ rest') := by
  cases pre with
  | nil => exact h
  | cons l pre => exact .of_head? rfl

/-- Every expression ends at the end of the tokens. -/
theorem ends_nil : Ends [] :=
  ⟨nofun, nofun⟩

/-- A token ends every expression in front of it if it is no operator and no `else`. -/
theorem ends_cons (t : Token) (hpipe : t ≠ .symbol .pipe) (hop : binaryOp? t = none)
    (helse : t ≠ .keyword .else_) (s : Span) (ts : List Lexeme) : Ends (⟨t, s⟩ :: ts) := by
  constructor
  · intro l hl
    obtain rfl := Option.some.inj hl
    exact ⟨hpipe, by simp [hop]⟩
  · intro l hl
    obtain rfl := Option.some.inj hl
    exact helse

/-- What is read stands in front of what is left, and of what is left only the next token matters. -/
theorem Reads.exists_append {mode : Mode} {ts rest : List Lexeme} {c : Concrete}
    (h : Reads mode ts c rest) :
    ∃ pre, ts = pre ++ rest ∧
      ∀ rest', EndsLike rest rest' → Reads mode (pre ++ rest') c rest' := by
  induction h with
  | expr _ _ ih₁ ih₂ =>
    obtain ⟨pre₁, rfl, h₁⟩ := ih₁
    obtain ⟨pre₂, rfl, h₂⟩ := ih₂
    refine ⟨pre₁ ++ pre₂, (List.append_assoc ..).symm, fun rest' hlike => ?_⟩
    rw [List.append_assoc]
    -- the first part ends alike because the second one begins with the same tokens, or is empty
    exact .expr (h₁ _ (hlike.append pre₂)) (h₂ rest' hlike)
  | integer => exact ⟨[_], rfl, fun _ _ => .integer⟩
  | text => exact ⟨[_], rfl, fun _ _ => .text⟩
  | true_ => exact ⟨[_], rfl, fun _ _ => .true_⟩
  | false_ => exact ⟨[_], rfl, fun _ _ => .false_⟩
  | nil => exact ⟨[_], rfl, fun _ _ => .nil⟩
  | name => exact ⟨[_], rfl, fun _ _ => .name⟩
  | not _ ih =>
    obtain ⟨pre, rfl, h⟩ := ih
    exact ⟨_ :: pre, rfl, fun rest' hlike => .not (h rest' hlike)⟩
  | negate _ ih =>
    obtain ⟨pre, rfl, h⟩ := ih
    exact ⟨_ :: pre, rfl, fun rest' hlike => .negate (h rest' hlike)⟩
  | @paren s s' _ _ _ _ ih =>
    obtain ⟨pre, rfl, h⟩ := ih
    refine ⟨⟨.symbol .openParen, s⟩ :: (pre ++ [⟨.symbol .closeParen, s'⟩]), by simp,
      fun rest' _ => ?_⟩
    rw [List.cons_append, List.append_assoc]
    exact .paren (h _ (.of_head? rfl))
  | @ifThen s s' _ _ _ _ _ _ _ helse ih₁ ih₂ =>
    obtain ⟨pre₁, rfl, h₁⟩ := ih₁
    obtain ⟨pre₂, rfl, h₂⟩ := ih₂
    refine ⟨⟨.keyword .if_, s⟩ :: (pre₁ ++ ⟨.keyword .then_, s'⟩ :: pre₂), by simp,
      fun rest' hlike => ?_⟩
    rw [List.cons_append, List.append_assoc]
    exact .ifThen (h₁ _ (.of_head? rfl)) (h₂ rest' hlike) (hlike.noElse helse)
  | @ifElse s s' s'' _ _ _ _ _ _ _ _ _ _ ih₁ ih₂ ih₃ =>
    obtain ⟨pre₁, rfl, h₁⟩ := ih₁
    obtain ⟨pre₂, rfl, h₂⟩ := ih₂
    obtain ⟨pre₃, rfl, h₃⟩ := ih₃
    refine ⟨⟨.keyword .if_, s⟩ :: (pre₁ ++ ⟨.keyword .then_, s'⟩ ::
      (pre₂ ++ ⟨.keyword .else_, s''⟩ :: pre₃)), by simp, fun rest' hlike => ?_⟩
    rw [List.cons_append, List.append_assoc, List.cons_append, List.append_assoc]
    exact .ifElse (h₁ _ (.of_head? rfl)) (h₂ _ (.of_head? rfl)) (h₃ rest' hlike)
  | lambda _ ih =>
    obtain ⟨pre, rfl, h⟩ := ih
    exact ⟨_ :: _ :: _ :: pre, rfl, fun rest' hlike => .lambda (h rest' hlike)⟩
  | stop hstops => exact ⟨[], rfl, fun rest' hlike => .stop (hlike.stops _ hstops)⟩
  | @apply _ _ s _ _ _ _ _ _ _ ih₁ ih₂ =>
    obtain ⟨pre₁, rfl, h₁⟩ := ih₁
    obtain ⟨pre₂, rfl, h₂⟩ := ih₂
    refine ⟨⟨.symbol .pipe, s⟩ :: (pre₁ ++ pre₂), by simp, fun rest' hlike => ?_⟩
    rw [List.cons_append, List.append_assoc]
    exact .apply (h₁ _ (hlike.append pre₂)) (h₂ rest' hlike)
  | @binary _ _ t s _ _ _ _ _ _ hop hlt _ _ ih₁ ih₂ =>
    obtain ⟨pre₁, rfl, h₁⟩ := ih₁
    obtain ⟨pre₂, rfl, h₂⟩ := ih₂
    refine ⟨⟨t, s⟩ :: (pre₁ ++ pre₂), by simp, fun rest' hlike => ?_⟩
    rw [List.cons_append, List.append_assoc]
    exact .binary hop hlt (h₁ _ (hlike.append pre₂)) (h₂ rest' hlike)

/-! ## Derivations -/

/-- Whether a token can be the first one of an expression. -/
def startsOperand : Token → Bool
  | .integer _ | .text _ | .name _ => true
  | .keyword k => k ∈ [.true_, .false_, .nil, .not_, .if_, .lambda]
  | .symbol s => s ∈ [.minus, .openParen]

/-- Whether a mode extends an expression. -/
def Mode.isClimb : Mode → Bool
  | .climb _ _ => true
  | _ => false

/-- `Enters mode ts closing inner ts'`: reading in a mode from `ts` comes to a part that is read in the
mode `inner` from `ts'`. If `closing` comes behind that part, all is complete. -/
inductive Enters : Mode → List Lexeme → List Lexeme → Mode → List Lexeme → Prop
  | operand {level ts} : Enters (.expr level) ts [] .operand ts
  | climb {level ts left mid} : Reads .operand ts left mid →
      Enters (.expr level) ts [] (.climb level left) mid
  | not {s ts} : Enters .operand (⟨.keyword .not_, s⟩ :: ts) [] (.expr unaryLevel) ts
  | negate {s ts} : Enters .operand (⟨.symbol .minus, s⟩ :: ts) [] (.expr unaryLevel) ts
  | paren {s ts} : Enters .operand (⟨.symbol .openParen, s⟩ :: ts) [⟨.symbol .closeParen, default⟩]
      (.expr lowestLevel) ts
  | condition {s ts} : Enters .operand (⟨.keyword .if_, s⟩ :: ts)
      [⟨.keyword .then_, default⟩, ⟨.integer 0, default⟩] (.expr lowestLevel) ts
  | consequence {s s' ts c mid} : Reads (.expr lowestLevel) ts c (⟨.keyword .then_, s'⟩ :: mid) →
      Enters .operand (⟨.keyword .if_, s⟩ :: ts) [] (.expr lowestLevel) mid
  | alternative {s s' s'' ts c mid t mid'} :
      Reads (.expr lowestLevel) ts c (⟨.keyword .then_, s'⟩ :: mid) →
      Reads (.expr lowestLevel) mid t (⟨.keyword .else_, s''⟩ :: mid') →
      Enters .operand (⟨.keyword .if_, s⟩ :: ts) [] (.expr lowestLevel) mid'
  | body {s s' s'' x ts} :
      Enters .operand (⟨.keyword .lambda, s⟩ :: ⟨.name x, s'⟩ :: ⟨.symbol .dot, s''⟩ :: ts) []
        (.expr lowestLevel) ts
  | argument {level left s ts} :
      Enters (.climb level left) (⟨.symbol .pipe, s⟩ :: ts) [] (.expr lowestLevel) ts
  | afterArgument {level left s ts a mid} : Reads (.expr lowestLevel) ts a mid →
      Enters (.climb level left) (⟨.symbol .pipe, s⟩ :: ts) [] (.climb level (.apply s left a)) mid
  | right {level left t s op ts} : binaryOp? t = some op → level < op.level →
      Enters (.climb level left) (⟨t, s⟩ :: ts) [] (.expr op.level) ts
  | afterRight {level left t s op ts r mid} : binaryOp? t = some op → level < op.level →
      Reads (.expr op.level) ts r mid →
      Enters (.climb level left) (⟨t, s⟩ :: ts) [] (.climb level (.binary s op left r)) mid

/-- `Refuses mode ts wanted rest`: reading in a mode from `ts` comes to `rest`, where `wanted` would
have to come next and does not. -/
inductive Refuses : Mode → List Lexeme → Wanted → List Lexeme → Prop
  | start {ts} : (∀ l ∈ ts.head?, startsOperand l.token = false) →
      Refuses .operand ts .expression ts
  | close {s ts e rest} : Reads (.expr lowestLevel) ts e rest → Lacks (.symbol .closeParen) rest →
      Refuses .operand (⟨.symbol .openParen, s⟩ :: ts) (.token (.symbol .closeParen)) rest
  | then_ {s ts c rest} : Reads (.expr lowestLevel) ts c rest → Lacks (.keyword .then_) rest →
      Refuses .operand (⟨.keyword .if_, s⟩ :: ts) (.token (.keyword .then_)) rest
  | param {s ts} : LacksName ts → Refuses .operand (⟨.keyword .lambda, s⟩ :: ts) .name ts
  | dot {s s' x ts} : Lacks (.symbol .dot) ts →
      Refuses .operand (⟨.keyword .lambda, s⟩ :: ⟨.name x, s'⟩ :: ts) (.token (.symbol .dot)) ts

/-- `Misreads mode ts wanted rest`: reading in a mode from `ts` fails in front of `rest`. -/
inductive Misreads : Mode → List Lexeme → Wanted → List Lexeme → Prop
  | here {mode ts wanted rest} : Refuses mode ts wanted rest → Misreads mode ts wanted rest
  | inside {mode ts closing inner ts' wanted rest} : Enters mode ts closing inner ts' →
      Misreads inner ts' wanted rest → Misreads mode ts wanted rest

/-! ## The functions and the relation -/

/-- Two readings in a row fail where the first fails, or where the second does behind it. -/
theorem Outcome.andThen_eq_fail_iff {α β : Type} {o : Outcome α} {f : α → List Lexeme → Outcome β}
    {w : Wanted} {rest : List Lexeme} :
    o.andThen f = .fail w rest ↔
      o = .fail w rest ∨ ∃ a mid, o = .ok a mid ∧ f a mid = .fail w rest := by
  constructor
  · intro h
    cases o with
    | ok a mid => exact .inr ⟨a, mid, rfl, h⟩
    | fail w' rest' =>
      cases h
      exact .inl rfl
    | outOfFuel => cases h
  · rintro (rfl | ⟨a, mid, rfl, h⟩)
    · rfl
    · exact h

/-- A token that is asked for in vain is not there, and nothing is taken. -/
theorem expect_eq_fail {t : Token} {ts rest : List Lexeme} {w : Wanted}
    (h : expect t ts = .fail w rest) : w = .token t ∧ rest = ts ∧ Lacks t ts := by
  cases ts with
  | nil =>
    cases h
    exact ⟨rfl, rfl, nofun⟩
  | cons l ts =>
    rw [expect] at h
    split at h
    · cases h
    · next hne =>
      cases h
      refine ⟨rfl, rfl, ?_⟩
      rintro _ ⟨⟩
      exact hne

/-- A name that is asked for in vain is not there, and nothing is taken. -/
theorem expectName_eq_fail {ts rest : List Lexeme} {w : Wanted}
    (h : expectName ts = .fail w rest) : w = .name ∧ rest = ts ∧ LacksName ts := by
  unfold expectName at h
  split at h
  · cases h
  · next hne =>
    cases h
    refine ⟨rfl, rfl, ?_⟩
    rintro ⟨_, s⟩ hl x rfl
    obtain ⟨tail, rfl⟩ := List.head?_eq_some_iff.mp hl
    exact hne x s tail rfl

section operand

variable {n : Nat} {ts rest : List Lexeme} {w : Wanted} {s : Span}

/-- What the reader makes of an expression is derived in the grammar. -/
theorem reads_of_exprAtFuel {level : Nat} {e : Parsed} (h : exprAtFuel n level ts = .ok e rest) :
    ∃ c : Concrete, c.parsed = e ∧ Reads (.expr level) ts c rest :=
  reads_of_readAtFuel (n := n) h

variable (hexpr : ∀ {level : Nat} {ts rest : List Lexeme} {w : Wanted},
  exprAtFuel n level ts = .fail w rest → Misreads (.expr level) ts w rest)
include hexpr

/-- A parenthesis that is not read is a misreading. -/
theorem misreads_paren (h : operandAtFuel (n + 1) (⟨.symbol .openParen, s⟩ :: ts) = .fail w rest) :
    Misreads .operand (⟨.symbol .openParen, s⟩ :: ts) w rest := by
  rcases Outcome.andThen_eq_fail_iff.mp h with h₁ | ⟨_, _, h₁, k₁⟩
  · exact .inside .paren (hexpr h₁)
  · obtain ⟨e, rfl, d⟩ := reads_of_exprAtFuel h₁
    rcases Outcome.andThen_eq_fail_iff.mp k₁ with h₂ | ⟨_, _, -, k₂⟩
    · obtain ⟨rfl, rfl, hlacks⟩ := expect_eq_fail h₂
      exact .here (.close d hlacks)
    · cases k₂

/-- A conditional that is not read is a misreading. -/
theorem misreads_if (h : operandAtFuel (n + 1) (⟨.keyword .if_, s⟩ :: ts) = .fail w rest) :
    Misreads .operand (⟨.keyword .if_, s⟩ :: ts) w rest := by
  rcases Outcome.andThen_eq_fail_iff.mp h with h₁ | ⟨_, _, h₁, k₁⟩
  · exact .inside .condition (hexpr h₁)
  obtain ⟨c, rfl, d₁⟩ := reads_of_exprAtFuel h₁
  rcases Outcome.andThen_eq_fail_iff.mp k₁ with h₂ | ⟨_, _, h₂, k₂⟩
  · obtain ⟨rfl, rfl, hlacks⟩ := expect_eq_fail h₂
    exact .here (.then_ d₁ hlacks)
  obtain rfl := expect_eq_ok_iff.mp h₂
  rcases Outcome.andThen_eq_fail_iff.mp k₂ with h₃ | ⟨_, _, h₃, k₃⟩
  · exact .inside (.consequence d₁) (hexpr h₃)
  obtain ⟨t, rfl, d₂⟩ := reads_of_exprAtFuel h₃
  split at k₃
  · rcases Outcome.andThen_eq_fail_iff.mp k₃ with h₄ | ⟨_, _, -, k₄⟩
    · exact .inside (.alternative d₁ d₂) (hexpr h₄)
    · cases k₄
  · cases k₃

/-- A function that is not read is a misreading. -/
theorem misreads_lambda (h : operandAtFuel (n + 1) (⟨.keyword .lambda, s⟩ :: ts) = .fail w rest) :
    Misreads .operand (⟨.keyword .lambda, s⟩ :: ts) w rest := by
  rcases Outcome.andThen_eq_fail_iff.mp h with h₁ | ⟨_, _, h₁, k₁⟩
  · obtain ⟨rfl, rfl, hlacks⟩ := expectName_eq_fail h₁
    exact .here (.param hlacks)
  obtain ⟨_, rfl⟩ := expectName_eq_ok_iff.mp h₁
  rcases Outcome.andThen_eq_fail_iff.mp k₁ with h₂ | ⟨_, _, h₂, k₂⟩
  · obtain ⟨rfl, rfl, hlacks⟩ := expect_eq_fail h₂
    exact .here (.dot hlacks)
  obtain rfl := expect_eq_ok_iff.mp h₂
  rcases Outcome.andThen_eq_fail_iff.mp k₂ with h₃ | ⟨_, _, -, k₃⟩
  · exact .inside .body (hexpr h₃)
  · cases k₃

/-- An operand that is not read is a misreading. -/
theorem misreads_operand (h : operandAtFuel (n + 1) ts = .fail w rest) :
    Misreads .operand ts w rest := by
  rcases ts with - | ⟨⟨t, s⟩, ts⟩
  · cases h
    exact .here (.start nofun)
  have hstart (ht : startsOperand t = false)
      (h : Outcome.fail (α := Parsed) .expression (⟨t, s⟩ :: ts) = .fail w rest) :
      Misreads .operand (⟨t, s⟩ :: ts) w rest := by
    cases h
    refine .here (.start ?_)
    rintro _ ⟨⟩
    exact ht
  cases t with
  | integer _ | text _ | name _ => cases h
  | keyword k =>
    cases k with
    | true_ | false_ | nil => cases h
    | not_ =>
      rcases Outcome.andThen_eq_fail_iff.mp h with h₁ | ⟨_, _, -, k₁⟩
      · exact .inside .not (hexpr h₁)
      · cases k₁
    | if_ => exact misreads_if hexpr h
    | lambda => exact misreads_lambda hexpr h
    | _ => exact hstart rfl h
  | symbol y =>
    cases y with
    | minus =>
      rcases Outcome.andThen_eq_fail_iff.mp h with h₁ | ⟨_, _, -, k₁⟩
      · exact .inside .negate (hexpr h₁)
      · cases k₁
    | openParen => exact misreads_paren hexpr h
    | _ => exact hstart rfl h

end operand

/-- Where the reader fails, there is a derivation of the error. -/
theorem misreads_of_readAtFuel {n : Nat} {mode : Mode} {ts rest : List Lexeme} {w : Wanted}
    (h : mode.readAtFuel n ts = .fail w rest) : Misreads mode ts w rest := by
  induction n generalizing mode ts rest w with
  | zero => cases mode <;> simp [Mode.readAtFuel, exprAtFuel, operandAtFuel, climbAtFuel] at h
  | succ n ih =>
    have hexpr {level : Nat} {ts rest : List Lexeme} {w : Wanted}
        (h : exprAtFuel n level ts = .fail w rest) : Misreads (.expr level) ts w rest := ih h
    have hclimb {level : Nat} (left : Concrete) {ts rest : List Lexeme} {w : Wanted}
        (h : climbAtFuel n level left.parsed ts = .fail w rest) :
        Misreads (.climb level left) ts w rest := ih h
    cases mode with
    | expr level =>
      rcases Outcome.andThen_eq_fail_iff.mp h with h₁ | ⟨_, mid, h₁, h₂⟩
      · have hoperand : Misreads .operand ts w rest := ih h₁
        exact .inside .operand hoperand
      · obtain ⟨left, rfl, d⟩ : ∃ c : Concrete, c.parsed = _ ∧ Reads .operand ts c mid :=
          reads_of_readAtFuel (n := n) h₁
        exact .inside (.climb d) (hclimb left h₂)
    | operand => exact misreads_operand hexpr h
    | climb level left =>
      simp only [Mode.readAtFuel] at h
      rcases stops_or_continues level ts with
        hstop | ⟨s, tail, rfl⟩ | ⟨t, s, tail, op, rfl, hop, hlt⟩
      · rw [climbAtFuel_of_stops hstop] at h
        cases h
      · rcases Outcome.andThen_eq_fail_iff.mp h with h₁ | ⟨_, mid, h₁, h₂⟩
        · exact .inside .argument (hexpr h₁)
        · obtain ⟨a, rfl, d⟩ := reads_of_exprAtFuel h₁
          exact .inside (.afterArgument d) (hclimb (.apply s left a) h₂)
      · rw [climbAtFuel_of_binaryOp? hop hlt] at h
        rcases Outcome.andThen_eq_fail_iff.mp h with h₁ | ⟨_, mid, h₁, h₂⟩
        · exact .inside (.right hop hlt) (hexpr h₁)
        · obtain ⟨r, rfl, d⟩ := reads_of_exprAtFuel h₁
          exact .inside (.afterRight hop hlt d) (hclimb (.binary s op left r) h₂)

/-! ## What an error depends on -/

section modes

variable {mode inner : Mode} {ts ts' closing rest vs : List Lexeme} {c : Concrete} {w : Wanted}

/-- A reading comes to its part behind what it has read; of what comes next, at most the next token
matters, and that only if the part extends an expression. -/
theorem Enters.exists_append (h : Enters mode ts closing inner ts') :
    ∃ front, ts = front ++ ts' ∧ (mode.isClimb = true → front ≠ []) ∧
      ∀ ts'', (inner.isClimb = true → ts''.head? = ts'.head?) →
        Enters mode (front ++ ts'') closing inner ts'' := by
  cases h with
  | operand => exact ⟨[], rfl, nofun, fun _ _ => .operand⟩
  | climb d =>
    obtain ⟨pre, rfl, h⟩ := d.exists_append
    exact ⟨pre, rfl, nofun, fun ts'' hhead => .climb (h ts'' (.of_head? (hhead rfl)))⟩
  | not => exact ⟨[_], rfl, nofun, fun _ _ => .not⟩
  | negate => exact ⟨[_], rfl, nofun, fun _ _ => .negate⟩
  | paren => exact ⟨[_], rfl, nofun, fun _ _ => .paren⟩
  | condition => exact ⟨[_], rfl, nofun, fun _ _ => .condition⟩
  | @consequence s s' _ _ _ d =>
    obtain ⟨pre, rfl, h⟩ := d.exists_append
    refine ⟨⟨.keyword .if_, s⟩ :: (pre ++ [⟨.keyword .then_, s'⟩]), by simp, nofun,
      fun ts'' _ => ?_⟩
    rw [List.cons_append, List.append_assoc]
    exact .consequence (h _ (.of_head? rfl))
  | @alternative s s' s'' _ _ _ _ _ d₁ d₂ =>
    obtain ⟨pre₁, rfl, h₁⟩ := d₁.exists_append
    obtain ⟨pre₂, rfl, h₂⟩ := d₂.exists_append
    refine ⟨⟨.keyword .if_, s⟩ :: (pre₁ ++ ⟨.keyword .then_, s'⟩ ::
      (pre₂ ++ [⟨.keyword .else_, s''⟩])), by simp, nofun, fun ts'' _ => ?_⟩
    rw [List.cons_append, List.append_assoc, List.cons_append, List.append_assoc]
    exact .alternative (h₁ _ (.of_head? rfl)) (h₂ _ (.of_head? rfl))
  | body => exact ⟨[_, _, _], rfl, nofun, fun _ _ => .body⟩
  | argument => exact ⟨[_], rfl, nofun, fun _ _ => .argument⟩
  | @afterArgument _ _ s _ _ _ d =>
    obtain ⟨pre, rfl, h⟩ := d.exists_append
    exact ⟨⟨.symbol .pipe, s⟩ :: pre, rfl, nofun,
      fun ts'' hhead => .afterArgument (h ts'' (.of_head? (hhead rfl)))⟩
  | right hop hlt => exact ⟨[_], rfl, nofun, fun _ _ => .right hop hlt⟩
  | @afterRight _ _ t s _ _ _ _ hop hlt d =>
    obtain ⟨pre, rfl, h⟩ := d.exists_append
    exact ⟨⟨t, s⟩ :: pre, rfl, nofun,
      fun ts'' hhead => .afterRight hop hlt (h ts'' (.of_head? (hhead rfl)))⟩

/-- A zero can be read in front of anything that ends an expression. -/
theorem reads_zero (hvs : Ends vs) (s : Span) :
    Reads (.expr lowestLevel) (⟨.integer 0, s⟩ :: vs) (.integer s 0) vs :=
  .expr .integer (.stop hvs.stops)

/-- What closes a part ends it. -/
theorem Enters.ends_closing (h : Enters mode ts closing inner ts') (hvs : Ends vs) :
    Ends (closing ++ vs) := by
  cases h with
  | paren => exact ends_cons (.symbol .closeParen) nofun rfl nofun _ _
  | condition => exact ends_cons (.keyword .then_) nofun rfl nofun _ _
  | _ => exact hvs

/-- When the part has been read and closed, all is complete. -/
theorem Enters.complete (h : Enters mode ts closing inner ts') (hvs : Ends vs)
    (hread : Reads inner ts' c (closing ++ vs)) : ∃ c', Reads mode ts c' vs := by
  have hstop (level : Nat) : Stops level vs := hvs.stops.mono (Nat.zero_le level)
  cases h with
  | operand => exact ⟨_, .expr hread (.stop (hstop _))⟩
  | climb d => exact ⟨_, .expr d hread⟩
  | not => exact ⟨_, .not hread⟩
  | negate => exact ⟨_, .negate hread⟩
  | paren => exact ⟨_, .paren hread⟩
  | condition => exact ⟨_, .ifThen hread (reads_zero hvs _) hvs.noElse⟩
  | consequence d => exact ⟨_, .ifThen d hread hvs.noElse⟩
  | alternative d₁ d₂ => exact ⟨_, .ifElse d₁ d₂ hread⟩
  | body => exact ⟨_, .lambda hread⟩
  | argument => exact ⟨_, .apply hread (.stop (hstop _))⟩
  | afterArgument d => exact ⟨_, .apply d hread⟩
  | right hop hlt => exact ⟨_, .binary hop hlt hread (.stop (hstop _))⟩
  | afterRight hop hlt d => exact ⟨_, .binary hop hlt d hread⟩

/-- Something can come behind the tokens `pre` that makes them a complete reading, in front of anything
that ends it. -/
def Mode.Completes (mode : Mode) (pre : List Lexeme) : Prop :=
  ∃ us, ∀ vs, Ends vs → ∃ c, Reads mode (pre ++ (us ++ vs)) c vs

/-- A token is refused because of what has been read in front of it, and of nothing else; and what was
wanted instead makes the reading complete. -/
theorem Refuses.exists_append (h : Refuses mode ts w rest) :
    ∃ pre, ts = pre ++ rest ∧ mode.isClimb = false ∧
      (∀ rest', rest'.head? = rest.head? → Refuses mode (pre ++ rest') w rest') ∧
      mode.Completes pre := by
  cases h with
  | start hstart =>
    refine ⟨[], rfl, rfl, fun rest' hhead => .start (hhead ▸ hstart), ?_⟩
    exact ⟨[⟨.integer 0, default⟩], fun vs _ => ⟨_, .integer⟩⟩
  | @close s _ _ _ d hlacks =>
    obtain ⟨pre, rfl, h⟩ := d.exists_append
    refine ⟨⟨.symbol .openParen, s⟩ :: pre, rfl, rfl, fun rest' hhead => ?_, ?_⟩
    · exact .close (h rest' (.of_head? hhead)) (hlacks.of_head? hhead)
    · refine ⟨[⟨.symbol .closeParen, default⟩], fun vs _ => ⟨_, .paren (h _ ?_)⟩⟩
      exact (ends_cons (.symbol .closeParen) nofun rfl nofun _ _).like _
  | @then_ s _ _ _ d hlacks =>
    obtain ⟨pre, rfl, h⟩ := d.exists_append
    refine ⟨⟨.keyword .if_, s⟩ :: pre, rfl, rfl, fun rest' hhead => ?_, ?_⟩
    · exact .then_ (h rest' (.of_head? hhead)) (hlacks.of_head? hhead)
    · refine ⟨[⟨.keyword .then_, default⟩, ⟨.integer 0, default⟩], fun vs hvs => ?_⟩
      have hthen := ends_cons (.keyword .then_) nofun rfl nofun default (⟨.integer 0, default⟩ :: vs)
      exact ⟨_, .ifThen (h _ (hthen.like _)) (reads_zero hvs _) hvs.noElse⟩
  | @param s _ hlacks =>
    refine ⟨[⟨.keyword .lambda, s⟩], rfl, rfl, fun rest' hhead => ?_, ?_⟩
    · exact .param (hlacks.of_head? hhead)
    · refine ⟨[⟨.name "x", default⟩, ⟨.symbol .dot, default⟩, ⟨.integer 0, default⟩],
        fun vs hvs => ⟨_, .lambda (reads_zero hvs _)⟩⟩
  | @dot s s' x _ hlacks =>
    refine ⟨[⟨.keyword .lambda, s⟩, ⟨.name x, s'⟩], rfl, rfl, fun rest' hhead => ?_, ?_⟩
    · exact .dot (hlacks.of_head? hhead)
    · exact ⟨[⟨.symbol .dot, default⟩, ⟨.integer 0, default⟩],
        fun vs hvs => ⟨_, .lambda (reads_zero hvs _)⟩⟩

/-- An error depends on what has been read in front of it and on the next token, and on nothing else;
and with something else in place of that token, the reading could have been complete. -/
theorem Misreads.exists_append (h : Misreads mode ts w rest) :
    ∃ pre, ts = pre ++ rest ∧ (mode.isClimb = true → pre ≠ []) ∧
      (∀ rest', rest'.head? = rest.head? → Misreads mode (pre ++ rest') w rest') ∧
      mode.Completes pre := by
  induction h with
  | here h =>
    obtain ⟨pre, rfl, hclimb, hsame, hcomplete⟩ := h.exists_append
    exact ⟨pre, rfl, by simp [hclimb], fun rest' hhead => .here (hsame rest' hhead), hcomplete⟩
  | @inside mode ts closing inner ts' w rest henters _ ih =>
    obtain ⟨pre, rfl, hpre, hsame, us, hus⟩ := ih
    obtain ⟨front, rfl, hfront, hswap⟩ := henters.exists_append
    refine ⟨front ++ pre, (List.append_assoc ..).symm, ?_, ?_, us ++ closing, ?_⟩
    · intro hclimb
      exact List.append_ne_nil_of_left_ne_nil (hfront hclimb) pre
    · intro rest' hhead
      rw [List.append_assoc]
      refine .inside (hswap _ fun _ => ?_) (hsame rest' hhead)
      cases pre with
      | nil => exact hhead
      | cons l pre => rfl
    · intro vs hvs
      obtain ⟨c, hread⟩ := hus _ (henters.ends_closing hvs)
      rw [List.append_assoc, List.append_assoc us]
      refine (hswap _ fun hclimb => ?_).complete hvs hread
      -- an extension fails behind its first token, so this token stays
      obtain ⟨l, pre, rfl⟩ := List.exists_cons_of_ne_nil (hpre hclimb)
      rfl

end modes

/-! ## Statements -/

/-- Of what is left behind a statement, only the next token matters, and there need be none. -/
theorem ReadsStmt.exists_append {ts rest : List Lexeme} {c : ConcreteStmt} (h : ReadsStmt ts c rest) :
    ∃ pre, ts = pre ++ rest ∧
      ∀ rest', rest' = [] ∨ rest'.head? = rest.head? → ReadsStmt (pre ++ rest') c rest' := by
  have hlike {rest' : List Lexeme} (hnext : rest' = [] ∨ rest'.head? = rest.head?) :
      EndsLike rest rest' := by
    rcases hnext with rfl | hhead
    · exact ends_nil.like rest
    · exact .of_head? hhead
  cases h with
  | @define s s' s'' x _ _ _ d hend =>
    obtain ⟨pre, rfl, h⟩ := d.exists_append
    refine ⟨⟨.keyword .define, s⟩ :: ⟨.name x, s'⟩ :: ⟨.keyword .as_, s''⟩ :: pre, rfl,
      fun rest' hnext => .define (h rest' (hlike hnext)) ?_⟩
    rcases hnext with rfl | hhead
    · nofun
    · rwa [NoEnd, hhead]
  | @defineEnd s s' s'' send x _ _ _ d =>
    obtain ⟨pre, rfl, h⟩ := d.exists_append
    refine ⟨⟨.keyword .define, s⟩ :: ⟨.name x, s'⟩ :: ⟨.keyword .as_, s''⟩ ::
      (pre ++ [⟨.keyword .end_, send⟩]), by simp, fun rest' _ => ?_⟩
    rw [List.cons_append, List.cons_append, List.cons_append, List.append_assoc]
    exact .defineEnd (h _ (.of_head? rfl))
  | @puts s _ _ _ d =>
    obtain ⟨pre, rfl, h⟩ := d.exists_append
    exact ⟨⟨.keyword .puts, s⟩ :: pre, rfl, fun rest' hnext => .puts (h rest' (hlike hnext))⟩
  | expression d =>
    obtain ⟨pre, rfl, h⟩ := d.exists_append
    exact ⟨pre, rfl, fun rest' hnext => .expression (h rest' (hlike hnext))⟩

/-- `MisreadsStmt ts wanted rest`: reading a statement from `ts` fails in front of `rest`. -/
inductive MisreadsStmt : List Lexeme → Wanted → List Lexeme → Prop
  | name {s ts} : LacksName ts → MisreadsStmt (⟨.keyword .define, s⟩ :: ts) .name ts
  | as_ {s s' x ts} : Lacks (.keyword .as_) ts →
      MisreadsStmt (⟨.keyword .define, s⟩ :: ⟨.name x, s'⟩ :: ts) (.token (.keyword .as_)) ts
  | value {s s' s'' x ts wanted rest} : Misreads (.expr lowestLevel) ts wanted rest →
      MisreadsStmt (⟨.keyword .define, s⟩ :: ⟨.name x, s'⟩ :: ⟨.keyword .as_, s''⟩ :: ts) wanted rest
  | puts {s ts wanted rest} : Misreads (.expr lowestLevel) ts wanted rest →
      MisreadsStmt (⟨.keyword .puts, s⟩ :: ts) wanted rest
  | expression {ts wanted rest} : (∀ l ∈ ts.head?, startsStmt l = false) →
      Misreads (.expr lowestLevel) ts wanted rest → MisreadsStmt ts wanted rest

/-- Where the statement reader fails, there is a derivation of the error. -/
theorem misreadsStmt_of_stmt {ts rest : List Lexeme} {w : Wanted} (h : stmt ts = .fail w rest) :
    MisreadsStmt ts w rest := by
  have hexpr {ts rest : List Lexeme} {w : Wanted} (h : expr ts = .fail w rest) :
      Misreads (.expr lowestLevel) ts w rest :=
    misreads_of_readAtFuel (n := fuelFor ts) h
  unfold stmt at h
  split at h
  · rcases Outcome.andThen_eq_fail_iff.mp h with h₁ | ⟨_, _, h₁, k₁⟩
    · obtain ⟨rfl, rfl, hlacks⟩ := expectName_eq_fail h₁
      exact .name hlacks
    obtain ⟨_, rfl⟩ := expectName_eq_ok_iff.mp h₁
    rcases Outcome.andThen_eq_fail_iff.mp k₁ with h₂ | ⟨_, _, h₂, k₂⟩
    · obtain ⟨rfl, rfl, hlacks⟩ := expect_eq_fail h₂
      exact .as_ hlacks
    obtain rfl := expect_eq_ok_iff.mp h₂
    rcases Outcome.andThen_eq_fail_iff.mp k₂ with h₃ | ⟨_, _, -, k₃⟩
    · exact .value (hexpr h₃)
    · split at k₃ <;> cases k₃
  · rcases Outcome.andThen_eq_fail_iff.mp h with h₁ | ⟨_, _, -, k₁⟩
    · exact .puts (hexpr h₁)
    · cases k₁
  · next hdefine hputs =>
    rcases Outcome.andThen_eq_fail_iff.mp h with h₁ | ⟨_, _, -, k₁⟩
    · refine .expression ?_ (hexpr h₁)
      rintro ⟨t, s⟩ hl
      obtain ⟨tail, rfl⟩ := List.head?_eq_some_iff.mp hl
      rw [startsStmt, Bool.or_eq_false_iff, decide_eq_false_iff_not, decide_eq_false_iff_not]
      refine ⟨?_, ?_⟩
      · rintro rfl
        exact hdefine s tail rfl
      · rintro rfl
        exact hputs s tail rfl
    · cases k₁

/-- An error in a statement depends on what has been read in front of it and on the next token, and on
nothing else. It does not lie at a `define` or `puts` that begins the statement. With something else in
place of the next token, the statement could have been complete. -/
theorem MisreadsStmt.exists_append {ts rest : List Lexeme} {w : Wanted}
    (h : MisreadsStmt ts w rest) :
    ∃ pre, ts = pre ++ rest ∧ (pre = [] → ∀ l ∈ rest.head?, startsStmt l = false) ∧
      (∀ rest', rest'.head? = rest.head? → MisreadsStmt (pre ++ rest') w rest') ∧
      ∃ us c, ReadsStmt (pre ++ us) c [] := by
  cases h with
  | @name s _ hlacks =>
    refine ⟨[⟨.keyword .define, s⟩], rfl, nofun, fun rest' hhead => .name (hlacks.of_head? hhead), ?_⟩
    exact ⟨[⟨.name "x", default⟩, ⟨.keyword .as_, default⟩, ⟨.integer 0, default⟩], _,
      .define (reads_zero ends_nil _) nofun⟩
  | @as_ s s' x _ hlacks =>
    refine ⟨[⟨.keyword .define, s⟩, ⟨.name x, s'⟩], rfl, nofun,
      fun rest' hhead => .as_ (hlacks.of_head? hhead), ?_⟩
    exact ⟨[⟨.keyword .as_, default⟩, ⟨.integer 0, default⟩], _, .define (reads_zero ends_nil _) nofun⟩
  | @value s s' s'' x _ _ _ h =>
    obtain ⟨pre, rfl, -, hsame, us, hus⟩ := h.exists_append
    obtain ⟨c, hread⟩ := hus [] ends_nil
    rw [List.append_nil] at hread
    exact ⟨⟨.keyword .define, s⟩ :: ⟨.name x, s'⟩ :: ⟨.keyword .as_, s''⟩ :: pre, rfl, nofun,
      fun rest' hhead => .value (hsame rest' hhead), us, _, .define hread nofun⟩
  | @puts s _ _ _ h =>
    obtain ⟨pre, rfl, -, hsame, us, hus⟩ := h.exists_append
    obtain ⟨c, hread⟩ := hus [] ends_nil
    rw [List.append_nil] at hread
    exact ⟨⟨.keyword .puts, s⟩ :: pre, rfl, nofun, fun rest' hhead => .puts (hsame rest' hhead), us, _,
      .puts hread⟩
  | expression hstart h =>
    obtain ⟨pre, rfl, -, hsame, us, hus⟩ := h.exists_append
    obtain ⟨c, hread⟩ := hus [] ends_nil
    rw [List.append_nil] at hread
    refine ⟨pre, rfl, ?_, fun rest' hhead => .expression ?_ (hsame rest' hhead), us, _,
      .expression hread⟩
    · rintro rfl
      exact hstart
    · cases pre with
      | nil => exact hhead ▸ hstart
      | cons l pre => exact hstart

/-- The position of an error is the number of tokens in front of what is left. -/
theorem position_errorAt_append (pre rest : List Lexeme) (w : Wanted) :
    (errorAt (pre ++ rest) w rest).position = pre.length := by
  show (pre ++ rest).length - rest.length = _
  rw [List.length_append, Nat.add_sub_cancel]

end Duet.Parser
