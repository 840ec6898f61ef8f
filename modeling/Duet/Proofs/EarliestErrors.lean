import Duet.Proofs.BareTrees
import Duet.Proofs.Misreadings

/-!
# Errors come as early as they can

The reader looks at one token at a time and never goes back. So the first error should stand at the
first token that cannot come next: up to there the tokens could still become a program, and with this
token they cannot. The first half is a matter of completing whatever is open when the error arises, and
the second one says that nothing but the tokens up to the error was looked at.

* `Misreads.not_reads`: what fails is not read.
* `MisreadsProgram`: statements that are read, and one that fails.
* `MisreadsProgram.exists_append`: the tokens before the first error can be completed to a program, and
  the error arises with whatever comes behind.
* `firstError_earliest`: the first error of a parse.
-/

namespace Duet.Parser

/-! ## What fails is not read -/

section modes

variable {mode inner : Mode} {ts ts' closing rest rest' : List Lexeme} {c : Concrete} {w : Wanted}

/-- What refuses a token is not read. -/
theorem Refuses.not_reads (h : Refuses mode ts w rest) : ¬Reads mode ts c rest' := by
  intro hread
  cases h with
  | start hstart => cases hread <;> cases hstart _ rfl
  | close d hlacks =>
    cases hread with
    | paren d' =>
      obtain ⟨-, rfl⟩ := d.det d'
      exact hlacks _ rfl rfl
  | then_ d hlacks =>
    cases hread with
    | ifThen d' _ _ | ifElse d' _ _ =>
      obtain ⟨-, rfl⟩ := d.det d'
      exact hlacks _ rfl rfl
  | param hlacks =>
    cases hread with
    | lambda _ => exact hlacks _ rfl _ rfl
  | dot hlacks =>
    cases hread with
    | lambda _ => exact hlacks _ rfl rfl

/-- If a reading comes to a part and succeeds, the part is read. -/
theorem Enters.exists_reads (h : Enters mode ts closing inner ts') (hread : Reads mode ts c rest) :
    ∃ c' rest', Reads inner ts' c' rest' := by
  cases h with
  | operand =>
    cases hread with
    | expr d _ => exact ⟨_, _, d⟩
  | climb d =>
    cases hread with
    | expr d' d'' =>
      -- what stands in front of the part can be read in one way only
      obtain ⟨rfl, rfl⟩ := d.det d'
      exact ⟨_, _, d''⟩
  | not =>
    cases hread with
    | not d => exact ⟨_, _, d⟩
  | negate =>
    cases hread with
    | negate d => exact ⟨_, _, d⟩
  | paren =>
    cases hread with
    | paren d => exact ⟨_, _, d⟩
  | condition =>
    cases hread with
    | ifThen d _ _ | ifElse d _ _ => exact ⟨_, _, d⟩
  | consequence d =>
    cases hread with
    | ifThen d' d'' _ | ifElse d' d'' _ =>
      obtain ⟨-, hmid⟩ := d.det d'
      cases hmid
      exact ⟨_, _, d''⟩
  | alternative d₁ d₂ =>
    cases hread with
    | ifThen d₁' d₂' helse =>
      obtain ⟨-, hmid⟩ := d₁.det d₁'
      cases hmid
      obtain ⟨-, rfl⟩ := d₂.det d₂'
      exact absurd rfl (helse _ rfl)
    | ifElse d₁' d₂' d₃ =>
      obtain ⟨-, hmid⟩ := d₁.det d₁'
      cases hmid
      obtain ⟨-, hmid⟩ := d₂.det d₂'
      cases hmid
      exact ⟨_, _, d₃⟩
  | body =>
    cases hread with
    | lambda d => exact ⟨_, _, d⟩
  | argument =>
    cases hread with
    | stop hstop => exact absurd rfl (hstop _ rfl).1
    | apply d _ => exact ⟨_, _, d⟩
    | binary hop _ _ _ => cases hop
  | afterArgument d =>
    cases hread with
    | stop hstop => exact absurd rfl (hstop _ rfl).1
    | apply d' d'' =>
      obtain ⟨rfl, rfl⟩ := d.det d'
      exact ⟨_, _, d''⟩
    | binary hop _ _ _ => cases hop
  | right hop hlt =>
    cases hread with
    | stop hstop => exact absurd ((hstop _ rfl).2 _ hop) (Nat.not_le_of_lt hlt)
    | apply _ _ => cases hop
    | binary hop' _ d _ =>
      obtain rfl := Option.some.inj (hop.symm.trans hop')
      exact ⟨_, _, d⟩
  | afterRight hop hlt d =>
    cases hread with
    | stop hstop => exact absurd ((hstop _ rfl).2 _ hop) (Nat.not_le_of_lt hlt)
    | apply _ _ => cases hop
    | binary hop' _ d' d'' =>
      obtain rfl := Option.some.inj (hop.symm.trans hop')
      obtain ⟨rfl, rfl⟩ := d.det d'
      exact ⟨_, _, d''⟩

/-- What fails is not read: else each part would be read, and the innermost one is not. -/
theorem Misreads.not_reads (h : Misreads mode ts w rest) : ¬Reads mode ts c rest' := by
  induction h generalizing c rest' with
  | here h => exact h.not_reads
  | inside henters _ ih =>
    intro hread
    obtain ⟨c', rest'', hinner⟩ := henters.exists_reads hread
    exact ih hinner

end modes

/-! ## Statements -/

section statements

variable {ts rest rest' : List Lexeme} {c : ConcreteStmt} {w : Wanted}

/-- No statement can be read where one fails. -/
theorem MisreadsStmt.not_readsStmt (h : MisreadsStmt ts w rest) : ¬ReadsStmt ts c rest' := by
  intro hread
  cases h with
  | name hlacks =>
    cases hread with
    | define _ _ | defineEnd _ => exact hlacks _ rfl _ rfl
    | expression d => exact not_reads_define d
  | as_ hlacks =>
    cases hread with
    | define _ _ | defineEnd _ => exact hlacks _ rfl rfl
    | expression d => exact not_reads_define d
  | value h =>
    cases hread with
    | define d _ | defineEnd d => exact h.not_reads d
    | expression d => exact not_reads_define d
  | puts h =>
    cases hread with
    | puts d => exact h.not_reads d
    | expression d => exact not_reads_puts d
  | expression hstart h =>
    cases hread with
    | define _ _ | defineEnd _ | puts _ => cases hstart _ rfl
    | expression d => exact h.not_reads d

end statements

/-! ## Programs -/

/-- `MisreadsProgram ts wanted rest`: some statements are read from `ts`, and the next one fails in
front of `rest`. -/
inductive MisreadsProgram : List Lexeme → Wanted → List Lexeme → Prop
  | here {ts wanted rest} : ts ≠ [] → MisreadsStmt ts wanted rest → MisreadsProgram ts wanted rest
  | after {ts c mid wanted rest} : ReadsStmt ts c mid → MisreadsProgram mid wanted rest →
      MisreadsProgram ts wanted rest

/-- The first error of a program has a derivation. -/
theorem misreadsProgram_of_stmts {all ts : List Lexeme} {budget : Nat} {p : Program}
    {e : ParseError} {es : List ParseError} (h : stmts all budget ts = (p, e :: es)) :
    ∃ w rest, MisreadsProgram ts w rest ∧ e = errorAt all w rest := by
  induction hlen : ts.length using Nat.strongRecOn generalizing ts p with
  | ind n ih =>
    subst hlen
    have hpos : 0 < budget := by
      refine Nat.pos_of_ne_zero ?_
      rintro rfl
      rw [stmts_zero] at h
      cases h
    by_cases hnil : ts = []
    · rw [hnil, stmts_nil] at h
      cases h
    · cases hstmt : stmt ts with
      | ok statement rest =>
        obtain ⟨c, -, d⟩ := stmt_eq_ok_iff.mp hstmt
        rw [stmts_of_ok hpos hstmt] at h
        obtain ⟨w, rest', hmis, he⟩ :=
          ih rest.length d.length (Prod.ext rfl (Prod.mk.inj h).2) rfl
        exact ⟨w, rest', .after d hmis, he⟩
      | fail w rest =>
        rw [stmts_of_fail hnil hpos hstmt] at h
        exact ⟨w, rest, .here hnil (misreadsStmt_of_stmt hstmt),
          (List.cons.inj (Prod.mk.inj h).2).1.symm⟩
      | outOfFuel => exact absurd hstmt (stmt_ne_outOfFuel ts)

/-- A program with an error is not read. -/
theorem MisreadsProgram.not_readsProgram {ts rest : List Lexeme} {w : Wanted} {cs : ConcreteProgram}
    (h : MisreadsProgram ts w rest) : ¬ReadsProgram ts cs := by
  induction h generalizing cs with
  | here hne h =>
    intro hread
    cases hread with
    | nil => exact hne rfl
    | cons d _ => exact h.not_readsStmt d
  | after d _ ih =>
    intro hread
    cases hread with
    | nil => exact absurd d.length (Nat.not_lt_zero _)
    | cons d' hrest =>
      obtain ⟨-, rfl⟩ := d.det d'
      exact ih hrest

/-- The first error of a program depends on the tokens before it and on the next one, and on nothing
else. The tokens before it can be completed to a program; if there are none, they are one. -/
theorem MisreadsProgram.exists_append {ts rest : List Lexeme} {w : Wanted}
    (h : MisreadsProgram ts w rest) :
    ∃ pre, ts = pre ++ rest ∧
      (∀ rest', rest'.head? = rest.head? → MisreadsProgram (pre ++ rest') w rest') ∧
      ∃ us cs, (pre = [] → us = []) ∧ ReadsProgram (pre ++ us) cs := by
  induction h with
  | here hne h =>
    obtain ⟨pre, rfl, -, hsame, us, c, hread⟩ := h.exists_append
    refine ⟨pre, rfl, fun rest' hhead => .here ?_ (hsame rest' hhead), ?_⟩
    · cases pre with
      | nil =>
        rintro rfl
        exact hne (List.head?_eq_none_iff.mp hhead.symm)
      | cons l pre => nofun
    · by_cases hpre : pre = []
      · exact ⟨[], [], fun _ => rfl, by rw [hpre]; exact .nil⟩
      · exact ⟨us, [c], fun h => absurd h hpre, .cons hread .nil⟩
  | @after _ c _ _ _ d _ ih =>
    obtain ⟨pre₂, rfl, hsame, us, cs, hnil, hread⟩ := ih
    obtain ⟨pre₁, rfl, hswap⟩ := d.exists_append
    have hpre : pre₁ ≠ [] := by
      rintro rfl
      exact absurd d.length (Nat.lt_irrefl _)
    refine ⟨pre₁ ++ pre₂, (List.append_assoc ..).symm, fun rest' hhead => ?_, us, c :: cs, ?_, ?_⟩
    · rw [List.append_assoc]
      refine .after (hswap _ (.inr ?_)) (hsame rest' hhead)
      cases pre₂ with
      | nil => exact hhead
      | cons l pre₂ => rfl
    · intro h
      exact absurd (List.append_eq_nil_iff.mp h).1 hpre
    · rw [List.append_assoc]
      refine .cons (hswap _ ?_) hread
      cases pre₂ with
      | nil => exact .inl (hnil rfl)
      | cons l pre₂ => exact .inr rfl

/-- Where the parser fails, its first error has a derivation. -/
theorem misreadsProgram_of_parse {ts : List Lexeme} {errors : List ParseError}
    (h : parse ts = .error errors) :
    ∃ w rest es, errors = errorAt ts w rest :: es ∧ MisreadsProgram ts w rest := by
  unfold parse at h
  split at h
  · cases h
  · next found hne hstmts =>
    obtain rfl := Except.error.inj h
    obtain ⟨e, es, rfl⟩ := List.exists_cons_of_ne_nil (hne ·)
    obtain ⟨w, rest, hmis, rfl⟩ := misreadsProgram_of_stmts hstmts
    exact ⟨w, rest, es, rfl, hmis⟩

/-- With the token at which a program fails, it fails whatever comes behind. -/
theorem not_isPrefix_of_parse {pre rest : List Lexeme} {w : Wanted}
    (h : ∀ rest', rest'.head? = rest.head? → MisreadsProgram (pre ++ rest') w rest')
    (hlt : pre.length < (pre ++ rest).length) {us : List Lexeme} {p : Program}
    (hparse : parse us = .ok p) :
    ¬((pre ++ rest).take (pre.length + 1)).map (·.token) <+: us.map (·.token) := by
  obtain ⟨l, tail, rfl⟩ : ∃ l tail, rest = l :: tail := by
    refine List.exists_cons_of_ne_nil ?_
    rintro rfl
    simp at hlt
  have htake : (pre ++ l :: tail).take (pre.length + 1) = pre ++ [l] := by
    rw [List.append_cons]
    exact List.take_left' (by simp)
  rw [htake]
  rintro ⟨tokens, htokens⟩
  obtain ⟨us₁, us₂, rfl, hfirst, -⟩ := List.map_eq_append_iff.mp htokens.symm
  have hsame : ((pre ++ [l]) ++ us₂).map (·.token) = (us₁ ++ us₂).map (·.token) := by
    rw [List.map_append, ← hfirst, List.map_append]
  obtain ⟨p', hp'⟩ := exists_parse_eq_ok_of_tokens_eq hparse hsame
  obtain ⟨cs, -, hread⟩ := parse_eq_ok_iff.mp hp'
  rw [List.append_assoc] at hread
  exact (h (l :: us₂) rfl).not_readsProgram hread

end Duet.Parser

namespace Duet

open Duet.Parser

/-- **The first error comes as early as it can.** When a list of tokens is not accepted, the tokens
before the first error are the beginning of a list that is accepted. If the error stands at a token, no
list that begins with the tokens up to and including this one is accepted, wherever they stand. And the
error stands at the end exactly if the list can be completed by appending tokens to it. -/
theorem firstError_earliest {ts : List Lexeme} {errors : List ParseError}
    (h : parse ts = .error errors) :
    ∃ e es, errors = e :: es ∧ e.position ≤ ts.length ∧
      (∃ us p, parse (ts.take e.position ++ us) = .ok p) ∧
      (e.position < ts.length → ∀ us p, parse us = .ok p →
        ¬(ts.take (e.position + 1)).map (·.token) <+: us.map (·.token)) ∧
      (e.position = ts.length ↔ ∃ us p, us ≠ [] ∧ parse (ts ++ us) = .ok p) := by
  obtain ⟨w, rest, es, rfl, hmis⟩ := misreadsProgram_of_parse h
  obtain ⟨pre, rfl, hsame, us, cs, -, hread⟩ := hmis.exists_append
  have hposition := position_errorAt_append pre rest w
  refine ⟨_, es, rfl, ?_, ?_, ?_, ?_⟩
  · rw [hposition, List.length_append]
    exact Nat.le_add_right _ _
  · rw [hposition, List.take_left]
    exact ⟨us, cs.trees, parse_eq_ok_iff.mpr ⟨cs, rfl, hread⟩⟩
  · rw [hposition]
    intro hlt us p hparse
    exact not_isPrefix_of_parse hsame hlt hparse
  · rw [hposition]
    constructor
    · intro hend
      obtain rfl : rest = [] := by
        rw [List.length_append] at hend
        exact List.eq_nil_of_length_eq_zero (by omega)
      refine ⟨us, cs.trees, ?_, ?_⟩
      · rintro rfl
        exact hmis.not_readsProgram hread
      · rw [List.append_nil]
        exact parse_eq_ok_iff.mpr ⟨cs, rfl, hread⟩
    · rintro ⟨us', p, -, hparse⟩
      have hle : pre.length ≤ (pre ++ rest).length := (List.prefix_append pre rest).length_le
      refine Nat.le_antisymm hle (Nat.le_of_not_lt fun hlt =>
        not_isPrefix_of_parse hsame hlt hparse ?_)
      rw [List.map_append]
      exact ((List.take_prefix _ _).map _).trans (List.prefix_append _ _)

/-- A statement that is read, and one that breaks off in a parenthesis, at the sixth token. -/
def brokenSum : List Lexeme :=
  [.integer 1, .keyword .puts, .symbol .openParen, .name "x", .symbol .plus, .keyword .then_,
    .integer 2].map fun t => ⟨t, default⟩

/-- The first five tokens of `brokenSum` can still become a program, and the first six cannot. -/
theorem firstError_earliest_brokenSum :
    parse brokenSum = .error [⟨5, default, .expression, some (.keyword .then_)⟩] ∧
    (∃ us p, parse (brokenSum.take 5 ++ us) = .ok p) ∧
    ∀ us p, parse us = .ok p → ¬(brokenSum.take 6).map (·.token) <+: us.map (·.token) := by
  have hstmts : stmts brokenSum maxErrors brokenSum = ([.expression (.integer default 1)],
      [⟨5, default, .expression, some (.keyword .then_)⟩]) := by decide +kernel
  have hparse : parse brokenSum
      = .error [⟨5, default, .expression, some (.keyword .then_)⟩] := by rw [parse, hstmts]
  obtain ⟨_, _, ⟨⟩, -, hbegins, hrefuses, -⟩ := firstError_earliest hparse
  exact ⟨hparse, hbegins, hrefuses (by decide)⟩

end Duet
