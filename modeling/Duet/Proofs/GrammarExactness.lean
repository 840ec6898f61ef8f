import Duet.Proofs.ParserDerivations

/-!
# The parser accepts exactly its grammar

A derivation of the reader spells an admissible tree (`Reads.sound`), and every admissible tree
has a derivation (`reads_append`). Which of the trees that can be spelled is taken depends on
what comes next, so both directions carry `EndsBefore c rest`: `rest` does not begin with a
token that the end of `c` would take for itself. The span that the reader hands on with an expression
is that of the token right before `rest` (`exists_concat_of_expr`), so no span looks back beyond the
first token of its expression.

Statements and programs are read from left to right, so the same follows for them. As a
derivation is determined by its input, the tokens of an accepted program have exactly one
admissible tree (`parse_eq_ok_iff_existsUnique`).
-/

namespace Duet.Parser

/-! ## What may follow an expression -/

/-- What comes next would not be taken by the end of the expression. -/
structure EndsBefore (c : Concrete) (rest : List Lexeme) : Prop where
  stops_of_endsOpen : c.endsOpen = true → Stops lowestLevel rest
  noElse : c.endsShort = true → NoElse rest
  noPipe : c.isAtom = false → ∀ l ∈ rest.head?, l.token ≠ .symbol .pipe
  stops_of_level : ∀ k ∈ c.level?, Stops k rest

/-- Reading stops in front of a token that is neither a pipe nor an operator above the level. -/
theorem stops_cons {level : Nat} {t : Token} {s : Span} {ts : List Lexeme}
    (hpipe : t ≠ .symbol .pipe) (hop : ∀ op ∈ binaryOp? t, op.level ≤ level) :
    Stops level (⟨t, s⟩ :: ts) := by
  intro l hl
  obtain rfl := Option.some.inj hl
  exact ⟨hpipe, hop⟩

/-- Where every expression stops, only an `else` can be taken. -/
theorem EndsBefore.of_stops {c : Concrete} {rest : List Lexeme} (h : Stops lowestLevel rest)
    (helse : c.endsShort = true → NoElse rest) : EndsBefore c rest where
  stops_of_endsOpen _ := h
  noElse := helse
  noPipe _ l hl := (h l hl).1
  stops_of_level k _ := h.mono (Nat.zero_le k)

/-- Anything may follow a literal, a name or a parenthesis. -/
theorem EndsBefore.of_isAtom {c : Concrete} (h : c.isAtom = true) (rest : List Lexeme) :
    EndsBefore c rest := by
  cases c with
  | unary | binary | ifThen | ifElse | lambda | apply => cases h
  | _ => exact ⟨nofun, nofun, nofun, nofun⟩

/-- An operator may follow what does not reach over it and does not bind less tightly. -/
theorem EndsBefore.operator {c : Concrete} {op : BinaryOp} (hopen : c.endsOpen = false)
    (hlevel : ∀ k ∈ c.level?, op.level ≤ k) (s : Span) (ts : List Lexeme) :
    EndsBefore c (⟨op.token, s⟩ :: ts) := by
  have hop : binaryOp? op.token = some op := binaryOp?_eq_some_iff.mpr rfl
  have hne {t : Token} (ht : binaryOp? t = none) : op.token ≠ t := by
    rintro rfl
    cases hop.symm.trans ht
  refine ⟨by simp [hopen], fun _ => ?_, fun _ => ?_, fun k hk => ?_⟩
  · simpa [NoElse] using hne rfl
  · simpa using hne rfl
  · exact stops_cons (hne rfl) (by simpa [hop] using hlevel k hk)

/-! ## What is read is admissible -/

/-- What a derivation in a mode says about the tree that it reads. -/
def Mode.Spells : Mode → List Lexeme → Concrete → List Lexeme → Prop
  | .expr level, ts, c, rest =>
    ts = c.lexemes ++ rest ∧ c.Admissible ∧ c.Above level ∧ EndsBefore c rest ∧ Stops level rest
  | .operand, ts, c, rest =>
    ts = c.lexemes ++ rest ∧ c.Admissible ∧ c.level? = none ∧ EndsBefore c rest
  | .climb level left, ts, c, rest =>
    left.Admissible → left.Above level → EndsBefore left ts →
      left.lexemes ++ ts = c.lexemes ++ rest ∧ c.Admissible ∧ c.Above level ∧
        EndsBefore c rest ∧ Stops level rest

/-- A derivation spells an admissible tree. -/
theorem Reads.sound {mode : Mode} {ts rest : List Lexeme} {c : Concrete}
    (h : Reads mode ts c rest) : mode.Spells ts c rest := by
  induction h with
  | expr _ _ ih₁ ih₂ =>
    obtain ⟨rfl, hadm, hlevel, hends⟩ := ih₁
    refine ih₂ hadm ?_ hends
    simp [Concrete.Above, hlevel]
  | integer | text | true_ | false_ | nil | name =>
    exact ⟨rfl, trivial, rfl, .of_isAtom rfl _⟩
  | not _ ih | negate _ ih =>
    obtain ⟨rfl, hadm, habove, hends, hstops⟩ := ih
    refine ⟨rfl, ⟨habove.level?_eq_none, hadm⟩, rfl, ?_⟩
    exact ⟨hends.stops_of_endsOpen, hends.noElse, fun _ l hl => (hstops l hl).1, nofun⟩
  | paren _ ih =>
    obtain ⟨rfl, hadm, -⟩ := ih
    exact ⟨by simp [Concrete.lexemes], hadm, rfl, .of_isAtom rfl _⟩
  | ifThen _ _ helse ih₁ ih₂ =>
    obtain ⟨rfl, hc, -⟩ := ih₁
    obtain ⟨rfl, ht, -, -, hstops⟩ := ih₂
    exact ⟨by simp [Concrete.lexemes], ⟨hc, ht⟩, rfl, .of_stops hstops fun _ => helse⟩
  | @ifElse s s' s'' ts c mid t mid' e rest _ _ _ ih₁ ih₂ ih₃ =>
    obtain ⟨rfl, hc, -⟩ := ih₁
    obtain ⟨rfl, ht, -, hends, -⟩ := ih₂
    obtain ⟨rfl, he, -, hends', hstops⟩ := ih₃
    -- a conditional without alternative at the end of `t` would have taken the `else`
    have hshort : t.endsShort = false := by
      rw [Bool.eq_false_iff]
      intro hshort
      exact hends.noElse hshort _ rfl rfl
    exact ⟨by simp [Concrete.lexemes], ⟨hshort, hc, ht, he⟩, rfl, .of_stops hstops hends'.noElse⟩
  | lambda _ ih =>
    obtain ⟨rfl, hbody, -, hends, hstops⟩ := ih
    exact ⟨rfl, hbody, rfl, .of_stops hstops hends.noElse⟩
  | stop hstops =>
    intro hadm habove hends
    exact ⟨rfl, hadm, habove, hends, hstops⟩
  | @apply level left s ts a mid c rest _ _ ih₁ ih₂ =>
    intro hadm habove hends
    obtain ⟨rfl, ha, -, hends', hstops⟩ := ih₁
    -- anything but an atom would have passed the pipe on to its last operand
    have hatom : left.isAtom = true := by
      rw [← Bool.not_eq_false]
      intro hatom
      exact hends.noPipe hatom _ rfl rfl
    have hnew := ih₂ ⟨hatom, hadm, ha⟩ nofun (.of_stops hstops hends'.noElse)
    simpa [Concrete.lexemes] using hnew
  | @binary level left t s op ts r mid c rest hop hlt _ _ ih₁ ih₂ =>
    intro hadm habove hends
    obtain ⟨rfl, hr, hrabove, hends', hstops⟩ := ih₁
    -- the left operand has ended here, so its own operator binds at least as tightly
    have hlevel : ∀ k ∈ left.level?, op.level ≤ k := fun k hk =>
      (hends.stops_of_level k hk _ rfl).2 op hop
    have hopen : left.endsOpen = false := by
      rw [Bool.eq_false_iff]
      intro hopen
      exact absurd ((hends.stops_of_endsOpen hopen _ rfl).2 op hop)
        (Nat.not_le_of_lt op.level_pos)
    have hnew := ih₂ ⟨hrabove, hlevel, hopen, hadm, hr⟩ (by simpa [Concrete.Above, Concrete.level?])
      ⟨hends'.stops_of_endsOpen, hends'.noElse, fun _ l hl => (hstops l hl).1,
        by simpa [Concrete.level?]⟩
    obtain rfl := binaryOp?_eq_some_iff.mp hop
    simpa [Concrete.lexemes] using hnew

/-! ## What is admissible is read -/

/-- Reading the tokens of an admissible tree amounts to extending the tree by what comes next. -/
theorem reads_append {c : Concrete} {level : Nat} {rest : List Lexeme} (hadm : c.Admissible)
    (habove : c.Above level) (hends : EndsBefore c rest) {d : Concrete} {r : List Lexeme}
    (h : Reads (.climb level c) rest d r) : Reads (.expr level) (c.lexemes ++ rest) d r := by
  induction c generalizing level rest d r with
  | integer s v => exact .expr .integer h
  | text s v => exact .expr .text h
  | boolean s v =>
    cases v with
    | true => exact .expr .true_ h
    | false => exact .expr .false_ h
  | nil s => exact .expr .nil h
  | name s x => exact .expr .name h
  | paren opening closing e ih =>
    have hstops : Stops lowestLevel (⟨.symbol .closeParen, closing⟩ :: rest) :=
      stops_cons nofun nofun
    have he := ih hadm e.above_lowestLevel (.of_stops hstops fun _ => by simp [NoElse])
      (.stop hstops)
    refine .expr ?_ h
    simpa [Concrete.lexemes] using Reads.paren he
  | unary s op e ih =>
    obtain ⟨hlevel, hadm⟩ := hadm
    have hstops : Stops unaryLevel rest := fun l hl =>
      ⟨hends.noPipe rfl l hl, fun op _ => Nat.le_of_lt op.level_lt_unaryLevel⟩
    have habove : e.Above unaryLevel := by simp [Concrete.Above, hlevel]
    have he := ih hadm habove
      ⟨hends.stops_of_endsOpen, hends.noElse, fun _ => hends.noPipe rfl, by simp [hlevel]⟩
      (.stop hstops)
    cases op with
    | not => exact .expr (.not he) h
    | negate => exact .expr (.negate he) h
  | binary s op left right ihl ihr =>
    obtain ⟨hrabove, hlevel, hopen, hl, hr⟩ := hadm
    have hop : binaryOp? op.token = some op := binaryOp?_eq_some_iff.mpr rfl
    have hstops : Stops op.level rest := hends.stops_of_level _ rfl
    have hright := ihr hr hrabove
      ⟨hends.stops_of_endsOpen, hends.noElse, fun _ l hl => (hstops l hl).1,
        fun k hk => hstops.mono (Nat.le_of_lt (hrabove k hk))⟩
      (.stop hstops)
    have hlabove : left.Above level := fun k hk =>
      Nat.lt_of_lt_of_le (habove _ rfl) (hlevel k hk)
    -- the left operand is extended by this operator first, and then by what `h` says
    have := ihl hl hlabove (.operator hopen hlevel _ _) (.binary hop (habove _ rfl) hright h)
    simpa [Concrete.lexemes] using this
  | ifThen sif sthen c t ihc iht =>
    obtain ⟨hc, ht⟩ := hadm
    have hstops := hends.stops_of_endsOpen rfl
    have hthen : Stops lowestLevel (⟨.keyword .then_, sthen⟩ :: (t.lexemes ++ rest)) :=
      stops_cons nofun nofun
    have hc := ihc hc c.above_lowestLevel (.of_stops hthen fun _ => by simp [NoElse])
      (.stop hthen)
    have ht := iht ht t.above_lowestLevel (.of_stops hstops fun _ => hends.noElse rfl)
      (.stop hstops)
    refine .expr ?_ h
    simpa [Concrete.lexemes] using Reads.ifThen hc ht (hends.noElse rfl)
  | ifElse sif sthen selse c t e ihc iht ihe =>
    obtain ⟨hshort, hc, ht, he⟩ := hadm
    have hstops := hends.stops_of_endsOpen rfl
    have hthen : Stops lowestLevel (⟨.keyword .then_, sthen⟩ ::
        (t.lexemes ++ ⟨.keyword .else_, selse⟩ :: (e.lexemes ++ rest))) :=
      stops_cons nofun nofun
    have helse : Stops lowestLevel (⟨.keyword .else_, selse⟩ :: (e.lexemes ++ rest)) :=
      stops_cons nofun nofun
    have hc := ihc hc c.above_lowestLevel (.of_stops hthen fun _ => by simp [NoElse])
      (.stop hthen)
    have ht := iht ht t.above_lowestLevel (.of_stops helse (by simp [hshort])) (.stop helse)
    have he := ihe he e.above_lowestLevel (.of_stops hstops hends.noElse) (.stop hstops)
    refine .expr ?_ h
    simpa [Concrete.lexemes] using Reads.ifElse hc ht he
  | lambda s sparam sdot param body ih =>
    have hstops := hends.stops_of_endsOpen rfl
    have hbody := ih hadm body.above_lowestLevel (.of_stops hstops hends.noElse) (.stop hstops)
    exact .expr (.lambda hbody) h
  | apply s f a ihf iha =>
    obtain ⟨hatom, hf, ha⟩ := hadm
    have hstops := hends.stops_of_endsOpen rfl
    have ha := iha ha a.above_lowestLevel (.of_stops hstops hends.noElse) (.stop hstops)
    have hfabove : f.Above level := by simp [Concrete.Above, Concrete.level?_eq_none hatom]
    have hf := ihf hf hfabove (.of_isAtom hatom _) (.apply (s := s) ha h)
    simpa [Concrete.lexemes] using hf

/-- The reader takes exactly the admissible trees that stop at what comes next. -/
theorem reads_expr_iff {ts rest : List Lexeme} {c : Concrete} :
    Reads (.expr lowestLevel) ts c rest ↔
      ts = c.lexemes ++ rest ∧ c.Admissible ∧ Stops lowestLevel rest ∧
        (c.endsShort = true → NoElse rest) := by
  constructor
  · intro h
    obtain ⟨hts, hadm, -, hends, hstops⟩ := h.sound
    exact ⟨hts, hadm, hstops, hends.noElse⟩
  · rintro ⟨rfl, hadm, hstops, helse⟩
    exact reads_append hadm c.above_lowestLevel (.of_stops hstops helse) (.stop hstops)

/-- The span handed on with an expression is that of the last token taken for it, which stands right
before what is left. -/
theorem exists_concat_of_expr {ts rest : List Lexeme} {e : Parsed} (h : expr ts = .ok e rest) :
    ∃ init t, ts = init ++ ⟨t, e.last⟩ :: rest := by
  obtain ⟨c, rfl, d⟩ := expr_eq_ok_iff.mp h
  obtain ⟨rfl, -⟩ := reads_expr_iff.mp d
  obtain ⟨init, t, hc⟩ := c.exists_lexemes_eq_concat
  refine ⟨init, t, ?_⟩
  rw [hc, List.append_assoc]
  rfl

-- The spans of tokens need not increase: a negation then ends with its last token all the same.
example : stmt [⟨.symbol .minus, ⟨5, 6⟩⟩, ⟨.name "f", ⟨0, 1⟩⟩, ⟨.symbol .pipe, ⟨2, 3⟩⟩,
      ⟨.name "a", ⟨7, 8⟩⟩] =
    .ok (.expression (.unary ⟨5, 8⟩ .negate
      (.apply ⟨0, 8⟩ (.name ⟨0, 1⟩ "f") (.name ⟨7, 8⟩ "a")))) [] := by decide

/-! ## Statements -/

/-- A derivation spells an admissible statement. -/
theorem ReadsStmt.sound {ts rest : List Lexeme} {c : ConcreteStmt} (h : ReadsStmt ts c rest) :
    ts = c.lexemes ++ rest ∧ c.value.Admissible ∧
      (c.isClosed = false → Stops lowestLevel rest) := by
  cases h with
  | define h _ | puts h | expression h =>
    obtain ⟨rfl, hadm, hstops, -⟩ := reads_expr_iff.mp h
    exact ⟨by simp [ConcreteStmt.lexemes], hadm, fun _ => hstops⟩
  | defineEnd h =>
    obtain ⟨rfl, hadm, -⟩ := reads_expr_iff.mp h
    exact ⟨by simp [ConcreteStmt.lexemes], hadm, nofun⟩

/-- An admissible statement is read if nothing that follows would be taken by its end. -/
theorem readsStmt_append {c : ConcreteStmt} {rest : List Lexeme} (hadm : c.value.Admissible)
    (hrest : c.isClosed = false → Stops lowestLevel rest ∧ NoElse rest ∧ NoEnd rest) :
    ReadsStmt (c.lexemes ++ rest) c rest := by
  have hvalue (h : c.isClosed = false) :
      Reads (.expr lowestLevel) (c.value.lexemes ++ rest) c.value rest :=
    reads_expr_iff.mpr ⟨rfl, hadm, (hrest h).1, fun _ => (hrest h).2.1⟩
  cases c with
  | define s sname sas x value closing =>
    cases closing with
    | none =>
      have hdefine : ReadsStmt _ (.define s sname sas x value none) rest :=
        .define (hvalue rfl) (hrest rfl).2.2
      simpa [ConcreteStmt.lexemes, ConcreteStmt.value] using hdefine
    | some send =>
      have hstops : Stops lowestLevel (⟨.keyword .end_, send⟩ :: rest) := stops_cons nofun nofun
      have hdefine : ReadsStmt _ (.define s sname sas x value (some send)) rest :=
        .defineEnd (reads_expr_iff.mpr ⟨rfl, hadm, hstops, fun _ => by simp [NoElse]⟩)
      simpa [ConcreteStmt.lexemes, ConcreteStmt.value] using hdefine
  | puts s value => exact .puts (hvalue rfl)
  | expression value => exact .expression (hvalue rfl)

/-- A token that, unless it is a minus sign, no statement takes at its end. -/
def Begins (t : Token) : Prop :=
  t ≠ .symbol .pipe ∧ t ≠ .keyword .else_ ∧ t ≠ .keyword .end_ ∧
    (t ≠ .symbol .minus → binaryOp? t = none)

/-- The first token of an expression is taken by no statement before it, unless it is a minus
sign. -/
theorem begins_head_concrete (c : Concrete) :
    ∃ l ts, c.lexemes = l :: ts ∧ Begins l.token := by
  induction c with
  | boolean s v => cases v <;> exact ⟨_, _, rfl, nofun, nofun, nofun, fun _ => rfl⟩
  | unary s op e _ =>
    cases op with
    | not => exact ⟨_, _, rfl, nofun, nofun, nofun, fun _ => rfl⟩
    | negate => exact ⟨_, _, rfl, nofun, nofun, nofun, fun h => absurd rfl h⟩
  | binary _ _ _ _ ih _ | apply _ _ _ ih _ =>
    obtain ⟨l, ts, hts, hl⟩ := ih
    exact ⟨l, _, by rw [Concrete.lexemes, hts, List.cons_append], hl⟩
  | _ => exact ⟨_, _, rfl, nofun, nofun, nofun, fun _ => rfl⟩

/-- The first token of a statement is taken by no statement before it, unless it is a minus sign. -/
theorem begins_head (c : ConcreteStmt) : ∃ l ts, c.lexemes = l :: ts ∧ Begins l.token := by
  cases c with
  | expression value => exact begins_head_concrete value
  | _ => exact ⟨_, _, rfl, nofun, nofun, nofun, fun _ => rfl⟩

/-- A statement begins with a minus sign if that is its first token. -/
theorem beginsWithMinus_iff {c : ConcreteStmt} {l : Lexeme} {ts : List Lexeme}
    (h : c.lexemes = l :: ts) : c.beginsWithMinus = true ↔ l.token = .symbol .minus := by
  simp [ConcreteStmt.beginsWithMinus, h]

/-- A statement that does not begin with a minus sign is not taken by what stands before it. -/
theorem stops_of_not_beginsWithMinus {cs : ConcreteProgram}
    (h : ∀ next ∈ cs.head?, next.beginsWithMinus = false) :
    Stops lowestLevel cs.lexemes ∧ NoElse cs.lexemes ∧ NoEnd cs.lexemes := by
  cases cs with
  | nil => exact ⟨nofun, nofun, nofun⟩
  | cons next cs =>
    obtain ⟨l, ts, hts, hpipe, helse, hend, hop⟩ := begins_head next
    have hminus : l.token ≠ .symbol .minus := by
      intro hminus
      exact absurd ((beginsWithMinus_iff hts).mpr hminus) (by simp [h next rfl])
    have hlexemes :
        ConcreteProgram.lexemes (next :: cs) = l :: (ts ++ ConcreteProgram.lexemes cs) := by
      simp [ConcreteProgram.lexemes, hts]
    rw [hlexemes]
    refine ⟨stops_cons hpipe (by simp [hop hminus]), ?_, ?_⟩
    · simpa [NoElse] using helse
    · simpa [NoEnd] using hend

/-! ## Programs -/

/-- The tokens of a program can be read as that program exactly if it is admissible. -/
theorem readsProgram_iff {ts : List Lexeme} {cs : ConcreteProgram} :
    ReadsProgram ts cs ↔ cs.Admissible ∧ cs.lexemes = ts := by
  constructor
  · intro h
    induction h with
    | nil => exact ⟨trivial, rfl⟩
    | @cons ts c rest cs d _ ih =>
      obtain ⟨hadm, rfl⟩ := ih
      obtain ⟨rfl, hvalue, hstops⟩ := d.sound
      refine ⟨⟨hvalue, fun hopen next hnext => ?_, hadm⟩, rfl⟩
      obtain ⟨cs', rfl⟩ := List.head?_eq_some_iff.mp hnext
      obtain ⟨l, ts, hts, -⟩ := begins_head next
      rw [Bool.eq_false_iff, ne_eq, beginsWithMinus_iff hts]
      intro hminus
      -- A minus sign would have been taken as a subtraction.
      have hl := (hstops hopen l (by simp [ConcreteProgram.lexemes, hts])).2 (.arith .subtract)
      rw [hminus] at hl
      exact absurd (hl rfl) (Nat.not_le_of_lt (BinaryOp.level_pos _))
  · rintro ⟨hadm, rfl⟩
    induction cs with
    | nil => exact .nil
    | cons c cs ih =>
      obtain ⟨hvalue, hnext, hadm⟩ := hadm
      have d := readsStmt_append hvalue fun hopen => stops_of_not_beginsWithMinus (hnext hopen)
      exact .cons d (ih hadm)

/-- The parser accepts a list of tokens, with the trees of a program as the result, exactly if
the tokens are those of an admissible concrete program with these trees; and there is then only
one such program. -/
theorem parse_eq_ok_iff_existsUnique (ts : List Lexeme) (p : Program) :
    parse ts = .ok p ↔
      ∃ cs : ConcreteProgram, cs.Admissible ∧ cs.lexemes = ts ∧ cs.trees = p ∧
        ∀ cs' : ConcreteProgram, cs'.Admissible → cs'.lexemes = ts → cs' = cs := by
  rw [parse_eq_ok_iff]
  constructor
  · rintro ⟨cs, htrees, h⟩
    obtain ⟨hadm, hlexemes⟩ := readsProgram_iff.mp h
    refine ⟨cs, hadm, hlexemes, htrees, ?_⟩
    intro cs' hadm' hlexemes'
    exact (readsProgram_iff.mpr ⟨hadm', hlexemes'⟩).det h
  · rintro ⟨cs, hadm, hlexemes, htrees, -⟩
    exact ⟨cs, htrees, readsProgram_iff.mpr ⟨hadm, hlexemes⟩⟩

end Duet.Parser
