import Duet.Proofs.ConcreteSyntax

/-!
# Derivations of the expression reader

The expression reader consists of three functions that call each other with fuel. `Reads` is the
same as a relation, without fuel and with concrete trees as results: one rule for each way in
which one of the functions can succeed, and a `Mode` to say which of the three it is.

* `Reads.det`: a derivation is determined by its input.
* `Reads.readAtFuel`: what has a derivation is read, if there is fuel for the length of the input.
* `reads_of_readAtFuel`: what is read has a derivation.

Together, `expr_eq_ok_iff`: the reader yields the tree of what can be derived, and nothing else.
-/

namespace Duet.Parser

/-! ## What an expression stops at -/

/-- The next token is neither an application nor an operator that binds more tightly than
`level`. -/
def Stops (level : Nat) (ts : List Lexeme) : Prop :=
  ∀ l ∈ ts.head?, l.token ≠ .symbol .pipe ∧ ∀ op ∈ binaryOp? l.token, op.level ≤ level

/-- The next token is not an `else`. -/
def NoElse (ts : List Lexeme) : Prop :=
  ∀ l ∈ ts.head?, l.token ≠ .keyword .else_

/-- The next token is not an `end`. -/
def NoEnd (ts : List Lexeme) : Prop :=
  ∀ l ∈ ts.head?, l.token ≠ .keyword .end_

/-- Where reading stops at a level, it stops at every higher one. -/
theorem Stops.mono {level level' : Nat} {ts : List Lexeme} (h : Stops level ts)
    (hle : level ≤ level') : Stops level' ts :=
  fun l hl => ⟨(h l hl).1, fun op hop => Nat.le_trans ((h l hl).2 op hop) hle⟩

/-- Unless an expression stops, an application or an operator follows. -/
theorem stops_or_continues (level : Nat) (ts : List Lexeme) :
    Stops level ts ∨ (∃ s tail, ts = ⟨.symbol .pipe, s⟩ :: tail) ∨
      ∃ t s tail op, ts = ⟨t, s⟩ :: tail ∧ binaryOp? t = some op ∧ level < op.level := by
  rcases ts with - | ⟨⟨t, s⟩, tail⟩
  · exact .inl nofun
  · by_cases hpipe : t = .symbol .pipe
    · exact .inr (.inl ⟨s, tail, by rw [hpipe]⟩)
    · have hstop (h : ∀ op ∈ binaryOp? t, op.level ≤ level) : Stops level (⟨t, s⟩ :: tail) := by
        intro l hl
        obtain rfl := Option.some.inj hl
        exact ⟨hpipe, h⟩
      cases hop : binaryOp? t with
      | none => exact .inl (hstop (by simp [hop]))
      | some op =>
        by_cases hlt : level < op.level
        · exact .inr (.inr ⟨t, s, tail, op, rfl, hop, hlt⟩)
        · exact .inl (hstop (by simpa [hop] using hlt))

/-! ## Derivations -/

/-- Which of the three readings a derivation is about. -/
inductive Mode where
  /-- An expression whose binary operators bind more tightly than `level`. -/
  | expr (level : Nat)
  /-- What may stand before the first binary operator. -/
  | operand
  /-- The extension of `left` to the right. -/
  | climb (level : Nat) (left : Concrete)

/-- `Reads mode ts c rest`: from the tokens `ts` the expression `c` is read, and `rest` is left. -/
inductive Reads : Mode → List Lexeme → Concrete → List Lexeme → Prop
  | expr {level ts left mid c rest} : Reads .operand ts left mid →
      Reads (.climb level left) mid c rest → Reads (.expr level) ts c rest
  | integer {s v rest} : Reads .operand (⟨.integer v, s⟩ :: rest) (.integer s v) rest
  | text {s v rest} : Reads .operand (⟨.text v, s⟩ :: rest) (.text s v) rest
  | true_ {s rest} : Reads .operand (⟨.keyword .true_, s⟩ :: rest) (.boolean s true) rest
  | false_ {s rest} : Reads .operand (⟨.keyword .false_, s⟩ :: rest) (.boolean s false) rest
  | nil {s rest} : Reads .operand (⟨.keyword .nil, s⟩ :: rest) (.nil s) rest
  | name {s x rest} : Reads .operand (⟨.name x, s⟩ :: rest) (.name s x) rest
  | not {s ts e rest} : Reads (.expr unaryLevel) ts e rest →
      Reads .operand (⟨.keyword .not_, s⟩ :: ts) (.unary s .not e) rest
  | negate {s ts e rest} : Reads (.expr unaryLevel) ts e rest →
      Reads .operand (⟨.symbol .minus, s⟩ :: ts) (.unary s .negate e) rest
  | paren {s s' ts e rest} :
      Reads (.expr lowestLevel) ts e (⟨.symbol .closeParen, s'⟩ :: rest) →
      Reads .operand (⟨.symbol .openParen, s⟩ :: ts) (.paren s s' e) rest
  | ifThen {s s' ts c mid t rest} :
      Reads (.expr lowestLevel) ts c (⟨.keyword .then_, s'⟩ :: mid) →
      Reads (.expr lowestLevel) mid t rest → NoElse rest →
      Reads .operand (⟨.keyword .if_, s⟩ :: ts) (.ifThen s s' c t) rest
  | ifElse {s s' s'' ts c mid t mid' e rest} :
      Reads (.expr lowestLevel) ts c (⟨.keyword .then_, s'⟩ :: mid) →
      Reads (.expr lowestLevel) mid t (⟨.keyword .else_, s''⟩ :: mid') →
      Reads (.expr lowestLevel) mid' e rest →
      Reads .operand (⟨.keyword .if_, s⟩ :: ts) (.ifElse s s' s'' c t e) rest
  | lambda {s s' s'' ts param body rest} : Reads (.expr lowestLevel) ts body rest →
      Reads .operand
        (⟨.keyword .lambda, s⟩ :: ⟨.name param, s'⟩ :: ⟨.symbol .dot, s''⟩ :: ts)
        (.lambda s s' s'' param body) rest
  | stop {level left ts} : Stops level ts → Reads (.climb level left) ts left ts
  | apply {level left s ts a mid c rest} : Reads (.expr lowestLevel) ts a mid →
      Reads (.climb level (.apply s left a)) mid c rest →
      Reads (.climb level left) (⟨.symbol .pipe, s⟩ :: ts) c rest
  | binary {level left t s op ts r mid c rest} : binaryOp? t = some op → level < op.level →
      Reads (.expr op.level) ts r mid →
      Reads (.climb level (.binary s op left r)) mid c rest →
      Reads (.climb level left) (⟨t, s⟩ :: ts) c rest

/-- An expression takes at least one token. -/
theorem Reads.length {mode : Mode} {ts rest : List Lexeme} {c : Concrete}
    (h : Reads mode ts c rest) :
    match mode with
    | .expr _ | .operand => rest.length < ts.length
    | .climb _ _ => rest.length ≤ ts.length := by
  induction h <;> simp_all <;> omega

/-- A derivation is determined by its input. -/
theorem Reads.det {mode : Mode} {ts rest rest' : List Lexeme} {c c' : Concrete}
    (h : Reads mode ts c rest) (h' : Reads mode ts c' rest') : c = c' ∧ rest = rest' := by
  induction h generalizing c' rest' with
  | expr _ _ ih₁ ih₂ =>
    cases h' with
    | expr h₁ h₂ =>
      obtain ⟨rfl, rfl⟩ := ih₁ h₁
      exact ih₂ h₂
  | integer | text | true_ | false_ | nil | name =>
    cases h'
    exact ⟨rfl, rfl⟩
  | not _ ih =>
    cases h' with
    | not h =>
      obtain ⟨rfl, rfl⟩ := ih h
      exact ⟨rfl, rfl⟩
  | negate _ ih =>
    cases h' with
    | negate h =>
      obtain ⟨rfl, rfl⟩ := ih h
      exact ⟨rfl, rfl⟩
  | paren _ ih =>
    cases h' with
    | paren h =>
      obtain ⟨rfl, hrest⟩ := ih h
      obtain ⟨⟨rfl⟩, rfl⟩ := List.cons.inj hrest
      exact ⟨rfl, rfl⟩
  | ifThen _ _ helse ih₁ ih₂ =>
    cases h' with
    | ifThen h₁ h₂ _ =>
      -- both derivations have read the same condition and the same consequence
      obtain ⟨rfl, hrest⟩ := ih₁ h₁
      obtain ⟨⟨rfl⟩, rfl⟩ := List.cons.inj hrest
      obtain ⟨rfl, rfl⟩ := ih₂ h₂
      exact ⟨rfl, rfl⟩
    | ifElse h₁ h₂ _ =>
      obtain ⟨rfl, hrest⟩ := ih₁ h₁
      obtain ⟨⟨rfl⟩, rfl⟩ := List.cons.inj hrest
      obtain ⟨rfl, rfl⟩ := ih₂ h₂
      -- this derivation saw no `else` here, and the other one read it
      exact absurd rfl (helse _ rfl)
  | ifElse _ _ _ ih₁ ih₂ ih₃ =>
    cases h' with
    | ifThen h₁ h₂ helse =>
      obtain ⟨rfl, hrest⟩ := ih₁ h₁
      obtain ⟨⟨rfl⟩, rfl⟩ := List.cons.inj hrest
      obtain ⟨rfl, rfl⟩ := ih₂ h₂
      exact absurd rfl (helse _ rfl)
    | ifElse h₁ h₂ h₃ =>
      obtain ⟨rfl, hrest⟩ := ih₁ h₁
      obtain ⟨⟨rfl⟩, rfl⟩ := List.cons.inj hrest
      obtain ⟨rfl, hrest⟩ := ih₂ h₂
      obtain ⟨⟨rfl⟩, rfl⟩ := List.cons.inj hrest
      obtain ⟨rfl, rfl⟩ := ih₃ h₃
      exact ⟨rfl, rfl⟩
  | lambda _ ih =>
    cases h' with
    | lambda h =>
      obtain ⟨rfl, rfl⟩ := ih h
      exact ⟨rfl, rfl⟩
  | stop hstop =>
    -- what stops one derivation does not let the other one go on
    cases h' with
    | stop _ => exact ⟨rfl, rfl⟩
    | apply _ _ => exact absurd rfl (hstop _ rfl).1
    | binary hop hlt _ _ => exact absurd ((hstop _ rfl).2 _ hop) (Nat.not_le_of_lt hlt)
  | apply _ _ ih₁ ih₂ =>
    cases h' with
    | stop hstop => exact absurd rfl (hstop _ rfl).1
    | apply h₁ h₂ =>
      obtain ⟨rfl, rfl⟩ := ih₁ h₁
      exact ih₂ h₂
    | binary hop _ _ _ => cases hop
  | binary hop hlt _ _ ih₁ ih₂ =>
    cases h' with
    | stop hstop => exact absurd ((hstop _ rfl).2 _ hop) (Nat.not_le_of_lt hlt)
    | apply _ _ => cases hop
    | binary hop' _ h₁ h₂ =>
      obtain rfl := Option.some.inj (hop.symm.trans hop')
      obtain ⟨rfl, rfl⟩ := ih₁ h₁
      exact ih₂ h₂

/-! ## The functions and the relation -/

/-- The function that a mode stands for. -/
def Mode.readAtFuel (n : Nat) : Mode → List Lexeme → Outcome Parsed
  | .expr level, ts => exprAtFuel n level ts
  | .operand, ts => operandAtFuel n ts
  | .climb level left, ts => climbAtFuel n level left.parsed ts

/-- Enough fuel for a mode. -/
def Mode.fuelFor (ts : List Lexeme) : Mode → Nat
  | .expr _ => 2 * ts.length + 2
  | .operand | .climb .. => 2 * ts.length + 1

/-- What is enough fuel is never zero. -/
theorem Mode.exists_eq_succ {mode : Mode} {ts : List Lexeme} {n : Nat}
    (hn : mode.fuelFor ts ≤ n) : ∃ k, n = k + 1 := by
  refine Nat.exists_eq_succ_of_ne_zero ?_
  rintro rfl
  cases mode <;> simp [fuelFor] at hn

/-- Two readings in a row succeed exactly if the first does and the second does behind it. -/
theorem Outcome.andThen_eq_ok_iff {α β : Type} {o : Outcome α} {f : α → List Lexeme → Outcome β}
    {b : β} {rest : List Lexeme} :
    o.andThen f = .ok b rest ↔ ∃ a mid, o = .ok a mid ∧ f a mid = .ok b rest := by
  constructor
  · intro h
    cases o with
    | ok a mid => exact ⟨a, mid, rfl, h⟩
    | _ => cases h
  · rintro ⟨a, mid, rfl, h⟩
    exact h

/-- A token is read exactly where it comes next. -/
theorem expect_eq_ok_iff {t : Token} {ts rest : List Lexeme} {s : Span} :
    expect t ts = .ok s rest ↔ ts = ⟨t, s⟩ :: rest := by
  cases ts with
  | nil => simp [expect]
  | cons l ts =>
    obtain ⟨t', s'⟩ := l
    by_cases ht : t' = t <;> simp [expect, ht]

/-- A name is read exactly where one comes next. -/
theorem expectName_eq_ok_iff {ts rest : List Lexeme} {x : String} :
    expectName ts = .ok x rest ↔ ∃ s, ts = ⟨.name x, s⟩ :: rest := by
  constructor
  · intro h
    unfold expectName at h
    split at h <;> cases h
    exact ⟨_, rfl⟩
  · rintro ⟨s, rfl⟩
    rfl

/-- An expression is not extended where reading stops. -/
theorem climbAtFuel_of_stops {level : Nat} {ts : List Lexeme} (h : Stops level ts) (n : Nat)
    (left : Parsed) : climbAtFuel (n + 1) level left ts = .ok left ts := by
  unfold climbAtFuel
  split
  · rfl
  · exact absurd rfl (h _ rfl).1
  · split
    · rfl
    · next hop => rw [if_neg (Nat.not_lt_of_le ((h _ rfl).2 _ hop))]

/-- An expression is extended by an operator above the level and the right operand behind it. -/
theorem climbAtFuel_of_binaryOp? {level : Nat} {t : Token} {op : BinaryOp}
    (hop : binaryOp? t = some op) (hlt : level < op.level) (n : Nat) (left : Parsed) (s : Span)
    (ts : List Lexeme) :
    climbAtFuel (n + 1) level left (⟨t, s⟩ :: ts) =
      (exprAtFuel n op.level ts).andThen fun right rest =>
        climbAtFuel n level
          ⟨.binary (left.tree.span.merge right.tree.span) op left.tree right.tree, right.last⟩
          rest := by
  rw [climbAtFuel]
  · simp only [hop, if_pos hlt]
  · rintro rfl
    cases hop

/-- What has a derivation is read, if there is fuel for the length of the input. -/
theorem Reads.readAtFuel {mode : Mode} {ts rest : List Lexeme} {c : Concrete}
    (h : Reads mode ts c rest) {n : Nat} (hn : mode.fuelFor ts ≤ n) :
    mode.readAtFuel n ts = .ok c.parsed rest := by
  induction h generalizing n with
  | expr h₁ _ ih₁ ih₂ =>
    obtain ⟨n, rfl⟩ := Mode.exists_eq_succ hn
    have hlen := h₁.length
    simp only [Mode.fuelFor, Mode.readAtFuel] at hn hlen ih₁ ih₂ ⊢
    rw [exprAtFuel, ih₁ (by omega)]
    exact ih₂ (by omega)
  | integer | text | true_ | false_ | nil | name =>
    obtain ⟨n, rfl⟩ := Mode.exists_eq_succ hn
    rfl
  | not _ ih | negate _ ih | paren _ ih | lambda _ ih =>
    obtain ⟨n, rfl⟩ := Mode.exists_eq_succ hn
    simp only [Mode.fuelFor, List.length_cons, Mode.readAtFuel, operandAtFuel] at hn ih ⊢
    simp only [expectName, expect, Outcome.andThen, if_true]
    rw [ih (by omega)]
    rfl
  | ifThen h₁ _ helse ih₁ ih₂ =>
    obtain ⟨n, rfl⟩ := Mode.exists_eq_succ hn
    have hlen := h₁.length
    simp only [Mode.fuelFor, List.length_cons, Mode.readAtFuel] at hn hlen ih₁ ih₂ ⊢
    rw [operandAtFuel, ih₁ (by omega)]
    simp only [expect, Outcome.andThen, if_true]
    rw [ih₂ (by omega)]
    dsimp only
    split
    · exact absurd rfl (helse _ rfl)
    · rfl
  | ifElse h₁ h₂ _ ih₁ ih₂ ih₃ =>
    obtain ⟨n, rfl⟩ := Mode.exists_eq_succ hn
    have hlen₁ := h₁.length
    have hlen₂ := h₂.length
    simp only [Mode.fuelFor, List.length_cons, Mode.readAtFuel] at hn hlen₁ hlen₂ ih₁ ih₂ ih₃ ⊢
    rw [operandAtFuel, ih₁ (by omega)]
    simp only [expect, Outcome.andThen, if_true]
    rw [ih₂ (by omega)]
    dsimp only
    rw [ih₃ (by omega)]
    rfl
  | stop hstop =>
    obtain ⟨n, rfl⟩ := Mode.exists_eq_succ hn
    exact climbAtFuel_of_stops hstop _ _
  | apply h₁ _ ih₁ ih₂ =>
    obtain ⟨n, rfl⟩ := Mode.exists_eq_succ hn
    have hlen := h₁.length
    simp only [Mode.fuelFor, List.length_cons, Mode.readAtFuel] at hn hlen ih₁ ih₂ ⊢
    rw [climbAtFuel, ih₁ (by omega)]
    exact ih₂ (by omega)
  | binary hop hlt h₁ _ ih₁ ih₂ =>
    obtain ⟨n, rfl⟩ := Mode.exists_eq_succ hn
    have hlen := h₁.length
    simp only [Mode.fuelFor, List.length_cons, Mode.readAtFuel] at hn hlen ih₁ ih₂ ⊢
    rw [climbAtFuel_of_binaryOp? hop hlt, ih₁ (by omega)]
    exact ih₂ (by omega)

/-- What is read has a derivation. -/
theorem reads_of_readAtFuel {n : Nat} {mode : Mode} {ts rest : List Lexeme} {e : Parsed}
    (h : mode.readAtFuel n ts = .ok e rest) :
    ∃ c : Concrete, c.parsed = e ∧ Reads mode ts c rest := by
  induction n generalizing mode ts rest e with
  | zero => cases mode <;> simp [Mode.readAtFuel, exprAtFuel, operandAtFuel, climbAtFuel] at h
  | succ n ih =>
    -- the induction hypothesis, spelled out for the modes that read below a node
    have hexpr (level : Nat) {ts rest : List Lexeme} {e : Parsed}
        (h : exprAtFuel n level ts = .ok e rest) :
        ∃ c : Concrete, c.parsed = e ∧ Reads (.expr level) ts c rest := ih h
    have hclimb (level : Nat) (left : Concrete) {ts rest : List Lexeme} {e : Parsed}
        (h : climbAtFuel n level left.parsed ts = .ok e rest) :
        ∃ c : Concrete, c.parsed = e ∧ Reads (.climb level left) ts c rest := ih h
    cases mode with
    | expr level =>
      obtain ⟨_, mid, h₁, h₂⟩ := Outcome.andThen_eq_ok_iff.mp h
      obtain ⟨left, rfl, d₁⟩ : ∃ c : Concrete, c.parsed = _ ∧ Reads .operand ts c mid := ih h₁
      obtain ⟨c, rfl, d₂⟩ := hclimb level left h₂
      exact ⟨c, rfl, .expr d₁ d₂⟩
    | operand =>
      simp only [Mode.readAtFuel] at h
      -- one case for each way in which an operand can begin
      unfold operandAtFuel at h
      split at h
      case h_1 => cases h; exact ⟨_, rfl, .integer⟩
      case h_2 => cases h; exact ⟨_, rfl, .text⟩
      case h_3 => cases h; exact ⟨_, rfl, .true_⟩
      case h_4 => cases h; exact ⟨_, rfl, .false_⟩
      case h_5 => cases h; exact ⟨_, rfl, .nil⟩
      case h_6 => cases h; exact ⟨_, rfl, .name⟩
      case h_7 =>
        obtain ⟨_, _, h₁, k₁⟩ := Outcome.andThen_eq_ok_iff.mp h
        obtain ⟨c, rfl, d⟩ := hexpr _ h₁
        cases k₁
        exact ⟨_, rfl, .not d⟩
      case h_8 =>
        obtain ⟨_, _, h₁, k₁⟩ := Outcome.andThen_eq_ok_iff.mp h
        obtain ⟨c, rfl, d⟩ := hexpr _ h₁
        cases k₁
        exact ⟨_, rfl, .negate d⟩
      case h_9 =>
        obtain ⟨_, _, h₁, k₁⟩ := Outcome.andThen_eq_ok_iff.mp h
        obtain ⟨_, _, h₂, k₂⟩ := Outcome.andThen_eq_ok_iff.mp k₁
        obtain ⟨c, rfl, d⟩ := hexpr _ h₁
        obtain rfl := expect_eq_ok_iff.mp h₂
        cases k₂
        exact ⟨_, rfl, .paren d⟩
      case h_10 =>
        obtain ⟨_, _, h₁, k₁⟩ := Outcome.andThen_eq_ok_iff.mp h
        obtain ⟨_, _, h₂, k₂⟩ := Outcome.andThen_eq_ok_iff.mp k₁
        obtain ⟨_, _, h₃, k₃⟩ := Outcome.andThen_eq_ok_iff.mp k₂
        obtain ⟨c, rfl, d₁⟩ := hexpr _ h₁
        obtain rfl := expect_eq_ok_iff.mp h₂
        obtain ⟨t, rfl, d₂⟩ := hexpr _ h₃
        split at k₃
        · obtain ⟨_, _, h₄, k₄⟩ := Outcome.andThen_eq_ok_iff.mp k₃
          obtain ⟨e, rfl, d₃⟩ := hexpr _ h₄
          cases k₄
          exact ⟨_, rfl, .ifElse d₁ d₂ d₃⟩
        · next hne =>
          cases k₃
          refine ⟨_, rfl, .ifThen d₁ d₂ ?_⟩
          rintro ⟨_, s⟩ hl rfl
          obtain ⟨tail, rfl⟩ := List.head?_eq_some_iff.mp hl
          exact hne s tail rfl
      case h_11 =>
        obtain ⟨_, _, h₁, k₁⟩ := Outcome.andThen_eq_ok_iff.mp h
        obtain ⟨_, _, h₂, k₂⟩ := Outcome.andThen_eq_ok_iff.mp k₁
        obtain ⟨_, _, h₃, k₃⟩ := Outcome.andThen_eq_ok_iff.mp k₂
        obtain ⟨_, rfl⟩ := expectName_eq_ok_iff.mp h₁
        obtain rfl := expect_eq_ok_iff.mp h₂
        obtain ⟨body, rfl, d⟩ := hexpr _ h₃
        cases k₃
        exact ⟨_, rfl, .lambda d⟩
      case h_12 => cases h
    | climb level left =>
      simp only [Mode.readAtFuel] at h
      rcases stops_or_continues level ts with
        hstop | ⟨s, tail, rfl⟩ | ⟨t, s, tail, op, rfl, hop, hlt⟩
      · rw [climbAtFuel_of_stops hstop] at h
        cases h
        exact ⟨left, rfl, .stop hstop⟩
      · obtain ⟨_, _, h₁, h₂⟩ := Outcome.andThen_eq_ok_iff.mp h
        obtain ⟨a, rfl, d₁⟩ := hexpr _ h₁
        obtain ⟨c, rfl, d₂⟩ := hclimb level (.apply s left a) h₂
        exact ⟨c, rfl, .apply d₁ d₂⟩
      · rw [climbAtFuel_of_binaryOp? hop hlt] at h
        obtain ⟨_, _, h₁, h₂⟩ := Outcome.andThen_eq_ok_iff.mp h
        obtain ⟨r, rfl, d₁⟩ := hexpr _ h₁
        obtain ⟨c, rfl, d₂⟩ := hclimb level (.binary s op left r) h₂
        exact ⟨c, rfl, .binary hop hlt d₁ d₂⟩

/-- The expression reader yields the trees of what can be derived, and nothing else. -/
theorem expr_eq_ok_iff {ts rest : List Lexeme} {e : Parsed} :
    expr ts = .ok e rest ↔ ∃ c : Concrete, c.parsed = e ∧ Reads (.expr lowestLevel) ts c rest := by
  constructor
  · intro h
    exact reads_of_readAtFuel (n := fuelFor ts) h
  · rintro ⟨c, rfl, h⟩
    exact h.readAtFuel (Nat.le_refl _)

/-! ## Statements -/

/-- `ReadsStmt ts c rest`: from the tokens `ts` the statement `c` is read, and `rest` is left. -/
inductive ReadsStmt : List Lexeme → ConcreteStmt → List Lexeme → Prop
  | define {s sname sas x ts value rest} : Reads (.expr lowestLevel) ts value rest → NoEnd rest →
      ReadsStmt (⟨.keyword .define, s⟩ :: ⟨.name x, sname⟩ :: ⟨.keyword .as_, sas⟩ :: ts)
        (.define s sname sas x value none) rest
  | defineEnd {s sname sas send x ts value rest} :
      Reads (.expr lowestLevel) ts value (⟨.keyword .end_, send⟩ :: rest) →
      ReadsStmt (⟨.keyword .define, s⟩ :: ⟨.name x, sname⟩ :: ⟨.keyword .as_, sas⟩ :: ts)
        (.define s sname sas x value (some send)) rest
  | puts {s ts value rest} : Reads (.expr lowestLevel) ts value rest →
      ReadsStmt (⟨.keyword .puts, s⟩ :: ts) (.puts s value) rest
  | expression {ts value rest} : Reads (.expr lowestLevel) ts value rest →
      ReadsStmt ts (.expression value) rest

/-- No expression begins with `define`. -/
theorem not_reads_define {level : Nat} {s : Span} {ts rest : List Lexeme} {c : Concrete} :
    ¬ Reads (.expr level) (⟨.keyword .define, s⟩ :: ts) c rest := by
  rintro (⟨h, -⟩)
  cases h

/-- No expression begins with `puts`. -/
theorem not_reads_puts {level : Nat} {s : Span} {ts rest : List Lexeme} {c : Concrete} :
    ¬ Reads (.expr level) (⟨.keyword .puts, s⟩ :: ts) c rest := by
  rintro (⟨h, -⟩)
  cases h

/-- At most one statement can be read from tokens. -/
theorem ReadsStmt.det {ts rest rest' : List Lexeme} {c c' : ConcreteStmt}
    (h : ReadsStmt ts c rest) (h' : ReadsStmt ts c' rest') : c = c' ∧ rest = rest' := by
  cases h with
  | define h hend =>
    cases h' with
    | define h' _ =>
      obtain ⟨rfl, rfl⟩ := h.det h'
      exact ⟨rfl, rfl⟩
    | defineEnd h' =>
      obtain ⟨rfl, rfl⟩ := h.det h'
      exact absurd rfl (hend _ rfl)
    | expression h' => exact absurd h' not_reads_define
  | defineEnd h =>
    cases h' with
    | define h' hend =>
      obtain ⟨rfl, rfl⟩ := h.det h'
      exact absurd rfl (hend _ rfl)
    | defineEnd h' =>
      obtain ⟨rfl, hrest⟩ := h.det h'
      obtain ⟨⟨rfl⟩, rfl⟩ := List.cons.inj hrest
      exact ⟨rfl, rfl⟩
    | expression h' => exact absurd h' not_reads_define
  | puts h =>
    cases h' with
    | puts h' =>
      obtain ⟨rfl, rfl⟩ := h.det h'
      exact ⟨rfl, rfl⟩
    | expression h' => exact absurd h' not_reads_puts
  | expression h =>
    cases h' with
    | define | defineEnd => exact absurd h not_reads_define
    | puts => exact absurd h not_reads_puts
    | expression h' =>
      obtain ⟨rfl, rfl⟩ := h.det h'
      exact ⟨rfl, rfl⟩

/-- A statement takes at least one token. -/
theorem ReadsStmt.length {ts rest : List Lexeme} {c : ConcreteStmt} (h : ReadsStmt ts c rest) :
    rest.length < ts.length := by
  cases h with
  | define h _ | defineEnd h | puts h =>
    have := h.length
    simp only [List.length_cons] at this ⊢
    omega
  | expression h => exact h.length

/-- The statement reader yields the trees of what can be derived, and nothing else. -/
theorem stmt_eq_ok_iff {ts rest : List Lexeme} {e : Stmt} :
    stmt ts = .ok e rest ↔ ∃ c : ConcreteStmt, c.tree = e ∧ ReadsStmt ts c rest := by
  constructor
  · intro h
    unfold stmt at h
    split at h
    · obtain ⟨_, _, h₁, k₁⟩ := Outcome.andThen_eq_ok_iff.mp h
      obtain ⟨_, _, h₂, k₂⟩ := Outcome.andThen_eq_ok_iff.mp k₁
      obtain ⟨_, _, h₃, k₃⟩ := Outcome.andThen_eq_ok_iff.mp k₂
      obtain ⟨_, rfl⟩ := expectName_eq_ok_iff.mp h₁
      obtain rfl := expect_eq_ok_iff.mp h₂
      obtain ⟨value, rfl, d⟩ := expr_eq_ok_iff.mp h₃
      split at k₃
      · cases k₃
        exact ⟨_, rfl, .defineEnd d⟩
      · next hne =>
        cases k₃
        refine ⟨_, rfl, .define d ?_⟩
        rintro ⟨_, s⟩ hl rfl
        obtain ⟨tail, rfl⟩ := List.head?_eq_some_iff.mp hl
        exact hne s tail rfl
    · obtain ⟨_, _, h₁, k₁⟩ := Outcome.andThen_eq_ok_iff.mp h
      obtain ⟨value, rfl, d⟩ := expr_eq_ok_iff.mp h₁
      cases k₁
      exact ⟨_, rfl, .puts d⟩
    · obtain ⟨_, _, h₁, k₁⟩ := Outcome.andThen_eq_ok_iff.mp h
      obtain ⟨value, rfl, d⟩ := expr_eq_ok_iff.mp h₁
      cases k₁
      exact ⟨_, rfl, .expression d⟩
  · rintro ⟨c, rfl, h⟩
    cases h with
    | define d hend =>
      have hvalue := expr_eq_ok_iff.mpr ⟨_, rfl, d⟩
      simp only [stmt, expectName, expect, Outcome.andThen, if_true, hvalue]
      split
      · exact absurd rfl (hend _ rfl)
      · rfl
    | defineEnd d =>
      have hvalue := expr_eq_ok_iff.mpr ⟨_, rfl, d⟩
      simp only [stmt, expectName, expect, Outcome.andThen, if_true, hvalue]
      rfl
    | puts d =>
      have hvalue := expr_eq_ok_iff.mpr ⟨_, rfl, d⟩
      simp only [stmt, Outcome.andThen, hvalue]
      rfl
    | expression d =>
      have hvalue := expr_eq_ok_iff.mpr ⟨_, rfl, d⟩
      unfold stmt
      split
      · exact absurd d not_reads_define
      · exact absurd d not_reads_puts
      · simp only [Outcome.andThen, hvalue]
        rfl

/-! ## Programs -/

/-- `ReadsProgram ts cs`: the tokens `ts` are those of the statements `cs`. -/
inductive ReadsProgram : List Lexeme → ConcreteProgram → Prop
  | nil : ReadsProgram [] []
  | cons {ts c rest cs} : ReadsStmt ts c rest → ReadsProgram rest cs → ReadsProgram ts (c :: cs)

/-- At most one program can be read from tokens. -/
theorem ReadsProgram.det {ts : List Lexeme} {cs cs' : ConcreteProgram}
    (h : ReadsProgram ts cs) (h' : ReadsProgram ts cs') : cs = cs' := by
  induction h generalizing cs' with
  | nil =>
    cases h' with
    | nil => rfl
    | cons d _ => exact absurd d.length (Nat.not_lt_zero _)
  | cons d _ ih =>
    cases h' with
    | nil => exact absurd d.length (Nat.not_lt_zero _)
    | cons d' h' =>
      obtain ⟨rfl, rfl⟩ := d.det d'
      rw [ih h']

/-- Reading statements meets no error exactly if the tokens are those of a program. -/
theorem stmts_eq_iff (all : List Lexeme) {ts : List Lexeme} {budget : Nat} (hpos : 0 < budget)
    {p : Program} :
    stmts all budget ts = (p, []) ↔ ∃ cs : ConcreteProgram, cs.trees = p ∧ ReadsProgram ts cs := by
  constructor
  · intro h
    induction hlen : ts.length using Nat.strongRecOn generalizing ts p with
    | ind n ih =>
      subst hlen
      by_cases hnil : ts = []
      · rw [hnil, stmts_nil] at h
        cases h
        exact ⟨[], rfl, hnil ▸ .nil⟩
      · cases hstmt : stmt ts with
        | ok e rest =>
          obtain ⟨c, rfl, d⟩ := stmt_eq_ok_iff.mp hstmt
          rw [stmts_of_ok hpos hstmt] at h
          obtain ⟨rfl, herrors⟩ := Prod.mk.inj h
          obtain ⟨cs, hcs, hrest⟩ := ih rest.length d.length (Prod.ext rfl herrors) rfl
          exact ⟨c :: cs, congrArg (c.tree :: ·) hcs, .cons d hrest⟩
        | fail wanted rest =>
          rw [stmts_of_fail hnil hpos hstmt] at h
          cases (Prod.mk.inj h).2
        | outOfFuel => exact absurd hstmt (stmt_ne_outOfFuel ts)
  · rintro ⟨cs, rfl, h⟩
    induction h with
    | nil => exact stmts_nil _ _
    | cons d _ ih =>
      rw [stmts_of_ok hpos (stmt_eq_ok_iff.mpr ⟨_, rfl, d⟩), ih]
      rfl

/-- The program reader yields the trees of what can be derived, and nothing else. -/
theorem parse_eq_ok_iff {ts : List Lexeme} {p : Program} :
    parse ts = .ok p ↔ ∃ cs : ConcreteProgram, cs.trees = p ∧ ReadsProgram ts cs := by
  have hpos : 0 < maxErrors := by decide
  rw [← stmts_eq_iff ts hpos]
  unfold parse
  split
  · next program h => simp [h]
  · next errors hne h =>
    rw [h]
    constructor
    · nofun
    · intro heq
      obtain ⟨rfl, rfl⟩ := Prod.mk.inj heq
      exact (hne rfl).elim

end Duet.Parser
