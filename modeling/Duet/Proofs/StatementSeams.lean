import Duet.Proofs.GrammarExactness

/-!
# Where programs can be cut

Statements have no terminators, and an expression reaches as far to the right as it can. Still, a
list of tokens can be cut in front of every `define` and every `puts`: it is read as a program
exactly if what stands before the cut and what stands behind it are, and the statements of the two
come one after the other (`parse_append_iff`).

Two facts make it up. The only place of such a token is the front of a statement
(`ConcreteStmt.exists_head`), so a cut in front of one never falls into a statement
(`ConcreteProgram.exists_cut`). And two programs make one unless the second begins with a minus
sign (`ConcreteProgram.admissible_append_iff`): no other token can both begin a statement and go on
with the expression before it.
-/

namespace Duet

open Duet.Parser (startsStmt)

/-! ## The place of `define` and `puts` -/

/-- No unary operator starts a statement. -/
theorem UnaryOp.startsStmt_token (op : UnaryOp) (s : Span) : startsStmt ⟨op.token, s⟩ = false := by
  cases op <;> rfl

/-- No binary operator starts a statement. -/
theorem BinaryOp.startsStmt_token (op : BinaryOp) (s : Span) :
    startsStmt ⟨op.token, s⟩ = false := by
  cases op with
  | arith op => cases op <;> rfl
  | _ => rfl

/-- No `define` and no `puts` stands inside an expression. -/
theorem Concrete.not_startsStmt (c : Concrete) : ∀ l ∈ c.lexemes, startsStmt l = false := by
  induction c with
  | integer | text | nil | name => exact List.forall_mem_singleton.mpr rfl
  | boolean s value => cases value <;> exact List.forall_mem_singleton.mpr rfl
  | paren opening closing e ih =>
    simp only [lexemes, List.forall_mem_cons, List.forall_mem_append]
    exact ⟨rfl, ih, rfl, List.forall_mem_nil _⟩
  | unary s op e ih =>
    simp only [lexemes, List.forall_mem_cons]
    exact ⟨op.startsStmt_token s, ih⟩
  | binary s op l r ihl ihr =>
    simp only [lexemes, List.forall_mem_cons, List.forall_mem_append]
    exact ⟨ihl, op.startsStmt_token s, ihr⟩
  | ifThen sif sthen c t ihc iht =>
    simp only [lexemes, List.forall_mem_cons, List.forall_mem_append]
    exact ⟨rfl, ihc, rfl, iht⟩
  | ifElse sif sthen selse c t e ihc iht ihe =>
    simp only [lexemes, List.forall_mem_cons, List.forall_mem_append]
    exact ⟨rfl, ihc, rfl, iht, rfl, ihe⟩
  | lambda s sparam sdot param body ih =>
    simp only [lexemes, List.forall_mem_cons]
    exact ⟨rfl, rfl, rfl, ih⟩
  | apply s f a ihf iha =>
    simp only [lexemes, List.forall_mem_cons, List.forall_mem_append]
    exact ⟨ihf, rfl, iha⟩

/-- Only the first token of a statement can be a `define` or a `puts`. -/
theorem ConcreteStmt.exists_head (c : ConcreteStmt) :
    ∃ l ts, c.lexemes = l :: ts ∧ ∀ l' ∈ ts, startsStmt l' = false := by
  have hvalue := c.value.not_startsStmt
  cases c with
  | define s sname sas x value closing =>
    refine ⟨_, _, rfl, ?_⟩
    simp only [List.forall_mem_cons, List.forall_mem_append]
    refine ⟨rfl, rfl, hvalue, ?_⟩
    cases closing with
    | none => exact List.forall_mem_nil _
    | some send => exact List.forall_mem_singleton.mpr rfl
  | puts s value => exact ⟨_, _, rfl, hvalue⟩
  | expression value =>
    obtain ⟨l, ts, hts, -⟩ := Parser.begins_head_concrete value
    refine ⟨l, ts, hts, fun l' hl' => hvalue l' ?_⟩
    show l' ∈ value.lexemes
    rw [hts]
    exact List.mem_cons_of_mem l hl'

namespace ConcreteProgram

/-- The tokens of a program are those of its first statement and those of the rest. -/
theorem lexemes_cons (c : ConcreteStmt) (cs : ConcreteProgram) :
    lexemes (c :: cs) = c.lexemes ++ lexemes cs :=
  List.flatMap_cons

/-- The tokens of a program in two parts are those of both, in order. -/
theorem lexemes_append (cs ds : ConcreteProgram) :
    lexemes (cs ++ ds) = lexemes cs ++ lexemes ds :=
  List.flatMap_append

/-- A cut in front of a `define` or a `puts` falls between two statements. -/
theorem exists_cut {cs : ConcreteProgram} {a b : List Lexeme} {l : Lexeme}
    (hcs : cs.lexemes = a ++ l :: b) (hl : startsStmt l = true) :
    ∃ front back : ConcreteProgram,
      cs = front ++ back ∧ front.lexemes = a ∧ back.lexemes = l :: b := by
  induction cs generalizing a with
  | nil => simp [lexemes] at hcs
  | cons c cs ih =>
    cases a with
    | nil => exact ⟨[], c :: cs, rfl, rfl, hcs⟩
    | cons first' a =>
      obtain ⟨first, ts, hts, hquiet⟩ := c.exists_head
      rw [lexemes_cons, hts] at hcs
      obtain ⟨rfl, htail⟩ := List.cons.inj hcs
      -- The cut falls behind the first statement, or the statement would have `l` inside.
      rcases List.append_eq_append_iff.mp htail with ⟨more, rfl, hrest⟩ | ⟨more, rfl, hrest⟩
      · obtain ⟨front, back, rfl, rfl, hback⟩ := ih hrest
        refine ⟨c :: front, back, rfl, ?_, hback⟩
        rw [lexemes_cons, hts, List.cons_append]
      · cases more with
        | nil =>
          refine ⟨[c], cs, rfl, ?_, hrest.symm⟩
          rw [lexemes_cons, hts, List.append_nil]
          exact List.append_nil _
        | cons l' more =>
          obtain ⟨rfl, -⟩ := List.cons.inj hrest
          rw [hquiet l (by simp)] at hl
          cases hl

/-! ## Putting programs together -/

/-- Two programs make one if the second does not begin with a minus sign. -/
theorem admissible_append_iff {cs ds : ConcreteProgram}
    (hseam : ∀ d ∈ ds.head?, d.beginsWithMinus = false) :
    Admissible (cs ++ ds) ↔ Admissible cs ∧ Admissible ds := by
  induction cs with
  | nil => simp [Admissible]
  | cons c cs ih =>
    have hnext : (∀ d ∈ (cs ++ ds).head?, d.beginsWithMinus = false) ↔
        ∀ d ∈ cs.head?, d.beginsWithMinus = false := by
      cases cs with
      | nil => exact ⟨nofun, fun _ => hseam⟩
      | cons => exact Iff.rfl
    simp only [List.cons_append, Admissible, hnext, ih, and_assoc]

/-- A program whose first token is a `define` or a `puts` does not begin with a minus sign. -/
theorem not_beginsWithMinus {ds : ConcreteProgram} {l : Lexeme} {b : List Lexeme}
    (hds : ds.lexemes = l :: b) (hl : startsStmt l = true) :
    ∀ d ∈ ds.head?, d.beginsWithMinus = false := by
  intro d hd
  obtain ⟨tail, rfl⟩ := List.head?_eq_some_iff.mp hd
  obtain ⟨first, ts, hts, -⟩ := d.exists_head
  rw [lexemes_cons, hts] at hds
  obtain ⟨rfl, -⟩ := List.cons.inj hds
  rw [Bool.eq_false_iff, ne_eq, Parser.beginsWithMinus_iff hts]
  intro hminus
  rw [startsStmt, hminus] at hl
  cases hl

end ConcreteProgram

/-! ## Reading in two parts -/

/-- A list of tokens with a `define` or a `puts` behind it: the whole is read as a program exactly
if both parts are, and its statements are those of the first and then those of the second part. -/
theorem parse_append_iff (a : List Lexeme) {b : List Lexeme}
    (hb : ∃ l ∈ b.head?, startsStmt l = true) (p : Program) :
    parse (a ++ b) = .ok p ↔
      ∃ pa pb, parse a = .ok pa ∧ parse b = .ok pb ∧ pa ++ pb = p := by
  obtain ⟨l, hhead, hl⟩ := hb
  obtain ⟨b, rfl⟩ := List.head?_eq_some_iff.mp hhead
  simp only [Parser.parse_eq_ok_iff, Parser.readsProgram_iff]
  constructor
  · rintro ⟨cs, rfl, hadm, hcs⟩
    obtain ⟨front, back, rfl, rfl, hback⟩ := ConcreteProgram.exists_cut hcs hl
    have hseam := ConcreteProgram.not_beginsWithMinus hback hl
    obtain ⟨hfront, hadm⟩ := (ConcreteProgram.admissible_append_iff hseam).mp hadm
    exact ⟨_, _, ⟨front, rfl, hfront, rfl⟩, ⟨back, rfl, hadm, hback⟩, List.map_append.symm⟩
  · rintro ⟨_, _, ⟨front, rfl, hfront, rfl⟩, ⟨back, rfl, hadm, hback⟩, rfl⟩
    have hseam := ConcreteProgram.not_beginsWithMinus hback hl
    refine ⟨front ++ back, List.map_append, ?_, ?_⟩
    · exact (ConcreteProgram.admissible_append_iff hseam).mpr ⟨hfront, hadm⟩
    · rw [ConcreteProgram.lexemes_append, hback]

/-- A definition that is open at its end in every way: it has no `end`, and it ends in a function,
in a conditional without alternative and in an argument. -/
def openDefinition : List Lexeme :=
  [⟨.keyword .define, ⟨0, 6⟩⟩, ⟨.name "f", ⟨7, 8⟩⟩, ⟨.keyword .as_, ⟨9, 11⟩⟩,
    ⟨.keyword .lambda, ⟨12, 18⟩⟩, ⟨.name "x", ⟨19, 20⟩⟩, ⟨.symbol .dot, ⟨21, 22⟩⟩,
    ⟨.keyword .if_, ⟨23, 25⟩⟩, ⟨.name "x", ⟨26, 27⟩⟩, ⟨.keyword .then_, ⟨28, 32⟩⟩,
    ⟨.name "f", ⟨33, 34⟩⟩, ⟨.symbol .pipe, ⟨35, 36⟩⟩, ⟨.integer 1, ⟨37, 38⟩⟩]

/-- An output, to stand behind `openDefinition`. -/
def outputBehind : List Lexeme :=
  [⟨.keyword .puts, ⟨39, 43⟩⟩, ⟨.symbol .minus, ⟨44, 45⟩⟩, ⟨.integer 2, ⟨45, 46⟩⟩]

/-- The statements of `openDefinition` and `outputBehind`. -/
def openDefinitionProgram : Program :=
  [.define ⟨0, 38⟩ "f" (.lambda ⟨12, 38⟩ "x" (.ifThen ⟨23, 38⟩ (.name ⟨26, 27⟩ "x")
      (.apply ⟨33, 38⟩ (.name ⟨33, 34⟩ "f") (.integer ⟨37, 38⟩ 1)))),
    .puts ⟨39, 46⟩ (.unary ⟨44, 46⟩ .negate (.integer ⟨45, 46⟩ 2))]

/-- The seam behind `openDefinition` is a statement boundary, although the definition is open at its
end. -/
theorem parse_append_openDefinition :
    (∃ l ∈ outputBehind.head?, startsStmt l = true) ∧
    parse (openDefinition ++ outputBehind) = .ok openDefinitionProgram ∧
    ∃ pa pb, parse openDefinition = .ok pa ∧ parse outputBehind = .ok pb ∧
      pa ++ pb = openDefinitionProgram := by
  have hseam : ∃ l ∈ outputBehind.head?, startsStmt l = true := ⟨_, rfl, rfl⟩
  have hstmts : Parser.stmts (openDefinition ++ outputBehind) Parser.maxErrors
      (openDefinition ++ outputBehind) = (openDefinitionProgram, []) := by decide +kernel
  have hparse : parse (openDefinition ++ outputBehind) = .ok openDefinitionProgram := by
    rw [parse, hstmts]
  exact ⟨hseam, hparse, (parse_append_iff openDefinition hseam _).mp hparse⟩

end Duet
