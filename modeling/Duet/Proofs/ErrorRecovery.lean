import Duet.Proofs.Misreadings

/-!
# Recovery from errors

A program is read statement by statement. When a statement fails, the error is reported, and reading
goes on at the next token with which a statement other than an expression begins. This is a loop that
takes turns: each turn reads a statement or reports an error, and moves on. The file says what one turn
does (`Turn`), what every turn keeps (`Turn.orderly`), and hence what is true at the end.

That errors do not come twice at one place is less obvious than it seems: reading may go on at the very
token that was at fault. But then this token begins a statement, so it is not at fault any more.

* `ResumesAt`: where reading goes on. `exists_resume_eq` says that this is what `resume` finds.
* `Turn` and `Turns`: one turn of the loop, and several. Each moves forward (`Turn.position_lt`).
* `exists_turns`: the statement reader takes turns until it is done.
* `recovery_of_stmts`: the errors of a program, and how reading goes on after them.
-/

namespace Duet.Parser

/-! ## Positions -/

/-- The error has the span of the token at its position. At the end, where there is no token, this is
the empty span behind the last one. -/
def IsAt (all : List Lexeme) (e : ParseError) : Prop :=
  (∃ l, all[e.position]? = some l ∧ e.span = l.span) ∨
    e.position = all.length ∧ ∃ l, all.getLast? = some l ∧ e.span = .empty l.span.stop

/-- An error in front of what is left of the tokens has the number of tokens behind it for its
position. -/
theorem position_errorAt_drop {all : List Lexeme} {w : Wanted} {k : Nat} (hk : k ≤ all.length) :
    (errorAt all w (all.drop k)).position = k := by
  have h := position_errorAt_append (all.take k) (all.drop k) w
  rwa [List.take_append_drop, List.length_take, Nat.min_eq_left hk] at h

/-- An error in front of what is left of the tokens is where it says. -/
theorem isAt_errorAt_drop {all : List Lexeme} {w : Wanted} {k : Nat} (hne : all ≠ [])
    (hk : k ≤ all.length) : IsAt all (errorAt all w (all.drop k)) := by
  rw [IsAt, position_errorAt_drop hk]
  rcases Nat.lt_or_eq_of_le hk with hlt | rfl
  · refine .inl ⟨all[k], List.getElem?_eq_getElem hlt, ?_⟩
    rw [List.drop_eq_getElem_cons hlt]
    rfl
  · refine .inr ⟨rfl, all.getLast hne, List.getLast?_eq_some_getLast hne, ?_⟩
    rw [List.drop_length]
    show endSpan all = _
    rw [endSpan, List.getLast?_eq_some_getLast hne]

/-- What is left behind a beginning of the tokens from a position on are the tokens from a later
position on. -/
theorem eq_drop_of_drop_eq_append {all pre rest : List Lexeme} {p : Nat}
    (h : all.drop p = pre ++ rest) : rest = all.drop (p + pre.length) := by
  rw [← List.drop_drop, h, List.drop_left]

/-! ## Where reading goes on -/

/-- After an error at `position` in the statement that begins at `start`, reading goes on at `next`: at
the first `define` or `puts` that is not before the error and that is behind the first token of the
statement, or at the end if there is none. -/
structure ResumesAt (all : List Lexeme) (start position next : Nat) : Prop where
  start_lt : start < next
  position_le : position ≤ next
  found : next = all.length ∨ ∃ l, all[next]? = some l ∧ startsStmt l = true
  first : ∀ i l, start < i → position ≤ i → i < next → all[i]? = some l → startsStmt l = false

/-- Reading never goes on behind the end. -/
theorem ResumesAt.le_length {all : List Lexeme} {start position next : Nat}
    (h : ResumesAt all start position next) : next ≤ all.length := by
  rcases h.found with rfl | ⟨l, hl, -⟩
  · exact Nat.le_refl _
  · exact Nat.le_of_lt (List.getElem?_eq_some_iff.mp hl).1

/-- Where the first token stands that a search does not pass. -/
theorem exists_dropWhile_eq_drop (f : Lexeme → Bool) (ts : List Lexeme) :
    ∃ n ≤ ts.length, ts.dropWhile f = ts.drop n ∧ (∀ l, ts[n]? = some l → f l = false) ∧
      ∀ i l, i < n → ts[i]? = some l → f l = true := by
  induction ts with
  | nil => exact ⟨0, Nat.le_refl 0, rfl, nofun, nofun⟩
  | cons l ts ih =>
    cases hl : f l with
    | false =>
      refine ⟨0, Nat.zero_le _, List.dropWhile_cons_of_neg (by simp [hl]), ?_, nofun⟩
      rintro _ ⟨⟩
      exact hl
    | true =>
      obtain ⟨n, hn, hdrop, hstop, hpass⟩ := ih
      refine ⟨n + 1, Nat.succ_le_succ hn, ?_, hstop, ?_⟩
      · rw [List.dropWhile_cons_of_pos hl, hdrop, List.drop_succ_cons]
      · intro i l' hi hl'
        cases i with
        | zero =>
          obtain rfl := Option.some.inj hl'
          exact hl
        | succ i => exact hpass i l' (Nat.lt_of_succ_lt_succ hi) hl'

/-- The search for the next statement finds where reading goes on. -/
theorem exists_resume_eq {all : List Lexeme} {p k : Nat} (hp : p < all.length) (hpk : p ≤ k)
    (hk : k ≤ all.length) :
    ∃ q, resume (all.drop p) (all.drop k) = all.drop q ∧ ResumesAt all p k q := by
  -- the search begins at the error, or at the token behind it if nothing has been read
  obtain ⟨b, hbegin, hpb, hkb, hb, hfirst⟩ : ∃ b,
      (if (all.drop k).length = (all.drop p).length then (all.drop k).tail else all.drop k)
        = all.drop b ∧ p < b ∧ k ≤ b ∧ b ≤ all.length ∧ ∀ i, p < i → k ≤ i → b ≤ i := by
    rw [List.length_drop, List.length_drop]
    rcases Nat.eq_or_lt_of_le hpk with rfl | hlt
    · refine ⟨p + 1, ?_, Nat.lt_succ_self p, Nat.le_succ p, hp, fun i hi _ => hi⟩
      rw [if_pos rfl, List.tail_drop]
    · refine ⟨k, if_neg ?_, hlt, Nat.le_refl k, hk, fun i _ hi => hi⟩
      omega
  obtain ⟨n, hn, hdrop, hstop, hpass⟩ := exists_dropWhile_eq_drop (!startsStmt ·) (all.drop b)
  rw [List.length_drop] at hn
  refine ⟨b + n, ?_, by omega, by omega, ?_, ?_⟩
  · rw [resume, hbegin, hdrop, List.drop_drop]
  · cases hnext : all[b + n]? with
    | none =>
      have := List.getElem?_eq_none_iff.mp hnext
      exact .inl (by omega)
    | some l =>
      rw [← List.getElem?_drop] at hnext
      exact .inr ⟨l, rfl, by simpa using hstop l hnext⟩
  · intro i l hpi hki hi hl
    have hbi := hfirst i hpi hki
    have hl' : (all.drop b)[i - b]? = some l := by
      rw [List.getElem?_drop, Nat.add_sub_cancel' hbi, hl]
    simpa using hpass (i - b) l (by omega) hl'

/-! ## Turns -/

/-- The reader between two statements: how many tokens are behind it, the statements that it has read
and the errors that it has reported. -/
structure Reader where
  position : Nat
  program : Program
  errors : List ParseError

/-- The reader in front of all tokens. -/
def Reader.start : Reader := ⟨0, [], []⟩

/-- One turn: the next statement is read, or it fails, and the error is reported and reading goes on
behind it. -/
inductive Turn (all : List Lexeme) : Reader → Reader → Prop
  | read {p q program errors statement} : p < all.length → errors.length < maxErrors →
      stmt (all.drop p) = .ok statement (all.drop q) → q ≤ all.length →
      Turn all ⟨p, program, errors⟩ ⟨q, program ++ [statement], errors⟩
  | fail {p q program errors wanted rest} : p < all.length → errors.length < maxErrors →
      stmt (all.drop p) = .fail wanted rest →
      ResumesAt all p (errorAt all wanted rest).position q →
      Turn all ⟨p, program, errors⟩ ⟨q, program, errors ++ [errorAt all wanted rest]⟩

/-- The given number of turns. -/
inductive Turns (all : List Lexeme) : Nat → Reader → Reader → Prop
  | refl (r : Reader) : Turns all 0 r r
  | cons {n : Nat} {r r₁ r₂ : Reader} : Turn all r r₁ → Turns all n r₁ r₂ → Turns all (n + 1) r r₂

section turns

variable {all : List Lexeme} {r r' : Reader} {n p q : Nat}

/-- What is read lies in front of what is left. -/
theorem exists_drop_of_stmt_ok {statement : Stmt} {rest : List Lexeme}
    (h : stmt (all.drop p) = .ok statement rest) (hp : p < all.length) :
    ∃ q, rest = all.drop q ∧ p < q ∧ q ≤ all.length := by
  obtain ⟨c, -, d⟩ := stmt_eq_ok_iff.mp h
  obtain ⟨pre, hpre, -⟩ := d.exists_append
  have hlength := congrArg List.length hpre
  have hlt := d.length
  rw [List.length_append, List.length_drop] at hlength
  rw [List.length_drop] at hlt
  exact ⟨p + pre.length, eq_drop_of_drop_eq_append hpre, by omega, by omega⟩

/-- An error lies in its statement, and not at a `define` or `puts` that begins it. -/
theorem exists_drop_of_stmt_fail {w : Wanted} {rest : List Lexeme}
    (h : stmt (all.drop p) = .fail w rest) (hp : p < all.length) :
    ∃ k, rest = all.drop k ∧ p ≤ k ∧ k ≤ all.length ∧
      (k = p → ∀ l ∈ all[p]?, startsStmt l = false) := by
  obtain ⟨pre, hpre, hstart, -⟩ := (misreadsStmt_of_stmt h).exists_append
  have hlength := congrArg List.length hpre
  rw [List.length_append, List.length_drop] at hlength
  refine ⟨p + pre.length, eq_drop_of_drop_eq_append hpre, Nat.le_add_right _ _, by omega, ?_⟩
  intro heq l hl
  have hnil : pre = [] := List.eq_nil_of_length_eq_zero (by omega)
  refine hstart hnil l ?_
  rw [hnil, List.nil_append] at hpre
  rwa [← hpre, List.head?_drop]

/-- Every turn moves forward. -/
theorem Turn.position_lt (h : Turn all r r') :
    r.position < r'.position ∧ r'.position ≤ all.length := by
  cases h with
  | @read p q _ _ _ hp _ hstmt hq =>
    have hfits := fits_stmt (all.drop p)
    rw [hstmt, Outcome.Fits, List.length_drop, List.length_drop] at hfits
    exact ⟨show p < q by omega, hq⟩
  | fail _ _ _ hresume => exact ⟨hresume.start_lt, hresume.le_length⟩

/-- There are no more turns than tokens. -/
theorem Turns.add_position_le (h : Turns all n r r') (hr : r.position ≤ all.length) :
    n + r.position ≤ all.length := by
  induction h with
  | refl r => omega
  | cons hturn _ ih =>
    obtain ⟨hlt, hle⟩ := hturn.position_lt
    have := ih hle
    omega

/-! ## What every turn keeps -/

/-- The errors so far are in order, are where they say, and lie behind the reader. If the last one lies
at the next token, this token begins a statement. -/
structure Reader.Orderly (all : List Lexeme) (r : Reader) : Prop where
  position_le : r.position ≤ all.length
  length_le : r.errors.length ≤ maxErrors
  increasing : (r.errors.map (·.position)).Pairwise (· < ·)
  isAt : ∀ e ∈ r.errors, IsAt all e
  behind : ∀ e ∈ r.errors, e.position < r.position ∨
    e.position = r.position ∧ ∀ l ∈ all[r.position]?, startsStmt l = true

/-- In front of all tokens no error has been reported. -/
theorem Reader.orderly_start (all : List Lexeme) : Reader.start.Orderly all :=
  ⟨Nat.zero_le _, Nat.zero_le _, .nil, fun _ he => absurd he List.not_mem_nil,
    fun _ he => absurd he List.not_mem_nil⟩

/-- An error lies behind those before it: the token at fault last time, if it begins this statement, is
not at fault again. -/
theorem Reader.Orderly.lt_of_fail {e : ParseError} {w : Wanted} {rest : List Lexeme}
    (hr : r.Orderly all) (he : e ∈ r.errors) (hp : r.position < all.length)
    (hstmt : stmt (all.drop r.position) = .fail w rest) :
    e.position < (errorAt all w rest).position := by
  obtain ⟨k, rfl, hpk, hk, hstart⟩ := exists_drop_of_stmt_fail hstmt hp
  rw [position_errorAt_drop hk]
  rcases hr.behind e he with hbehind | ⟨heq, hnext⟩
  · exact Nat.lt_of_lt_of_le hbehind hpk
  · refine Nat.lt_of_le_of_ne (Nat.le_trans (Nat.le_of_eq heq) hpk) fun hsame => ?_
    have hl := List.getElem?_eq_getElem hp
    have hfalse := hstart (hsame.symm.trans heq) _ hl
    rw [hnext _ hl] at hfalse
    cases hfalse

/-- A turn keeps the errors in order. -/
theorem Turn.orderly (h : Turn all r r') (hr : r.Orderly all) : r'.Orderly all := by
  obtain ⟨hlt, hle⟩ := h.position_lt
  cases h with
  | read _ hbudget _ _ =>
    refine ⟨hle, hr.length_le, hr.increasing, hr.isAt, fun e he => .inl ?_⟩
    rcases hr.behind e he with hbehind | ⟨heq, -⟩
    · exact Nat.lt_trans hbehind hlt
    · exact heq ▸ hlt
  | @fail p q _ errors w rest hp hbudget hstmt hresume =>
    have hold (e : ParseError) (he : e ∈ errors) : e.position < (errorAt all w rest).position :=
      hr.lt_of_fail he hp hstmt
    refine ⟨hle, ?_, ?_, ?_, ?_⟩
    · rw [List.length_append]
      exact hbudget
    · rw [List.map_append, List.pairwise_append]
      refine ⟨hr.increasing, List.pairwise_singleton _ _, ?_⟩
      intro i hi j hj
      obtain ⟨e, he, rfl⟩ := List.mem_map.mp hi
      obtain rfl := List.mem_singleton.mp hj
      exact hold e he
    · intro e he
      rcases List.mem_append.mp he with he | he
      · exact hr.isAt e he
      · obtain rfl := List.mem_singleton.mp he
        obtain ⟨k, rfl, -, hk, -⟩ := exists_drop_of_stmt_fail hstmt hp
        exact isAt_errorAt_drop (List.ne_nil_of_length_pos (Nat.zero_lt_of_lt hp)) hk
    · intro e he
      rcases List.mem_append.mp he with he | he
      · exact .inl (Nat.lt_of_lt_of_le (hold e he) hresume.position_le)
      · obtain rfl := List.mem_singleton.mp he
        -- reading goes on behind the error, or at it if the token there begins a statement
        rcases Nat.lt_or_eq_of_le hresume.position_le with hbefore | hsame
        · exact .inl hbefore
        · refine .inr ⟨hsame, fun l hl => ?_⟩
          rcases hresume.found with rfl | ⟨l', hl', hstarts⟩
          · rw [List.getElem?_eq_none (Nat.le_refl _)] at hl
            cases hl
          · obtain rfl := Option.some.inj (hl'.symm.trans hl)
            exact hstarts

/-- Turns keep the errors in order. -/
theorem Turns.orderly (h : Turns all n r r') (hr : r.Orderly all) : r'.Orderly all := by
  induction h with
  | refl r => exact hr
  | cons hturn _ ih => exact ih (hturn.orderly hr)

end turns

/-! ## The loop -/

/-- The reader has come to the end, or it has reported as many errors as it may. -/
def Reader.Done (all : List Lexeme) (r : Reader) : Prop :=
  r.position = all.length ∨ r.errors.length = maxErrors

/-- The statement reader takes turns until it is done. -/
theorem exists_turns {all : List Lexeme} {r : Reader} (hr : r.Orderly all) :
    ∃ n last, Turns all n r last ∧ last.Done all ∧
      last.program = r.program
        ++ (stmts all (maxErrors - r.errors.length) (all.drop r.position)).1 ∧
      last.errors = r.errors
        ++ (stmts all (maxErrors - r.errors.length) (all.drop r.position)).2 := by
  -- every turn moves the reader on, so induction on the tokens that are left
  induction hleft : all.length - r.position using Nat.strongRecOn generalizing r with
  | ind left ih =>
    subst hleft
    obtain ⟨p, program, errors⟩ := r
    by_cases hend : p = all.length
    · refine ⟨0, _, .refl _, .inl hend, ?_⟩
      simp only [hend, List.drop_length, stmts_nil, List.append_nil, and_self]
    by_cases hbudget : errors.length = maxErrors
    · refine ⟨0, _, .refl _, .inr hbudget, ?_⟩
      simp only [hbudget, Nat.sub_self, stmts_zero, List.append_nil, and_self]
    have hp : p < all.length := Nat.lt_of_le_of_ne hr.position_le hend
    have hlt : errors.length < maxErrors := Nat.lt_of_le_of_ne hr.length_le hbudget
    have hpos : 0 < maxErrors - errors.length := Nat.sub_pos_of_lt hlt
    have hne : all.drop p ≠ [] := fun h => absurd (List.drop_eq_nil_iff.mp h) (Nat.not_le_of_lt hp)
    cases hstmt : stmt (all.drop p) with
    | ok statement rest =>
      obtain ⟨q, rfl, hpq, hq⟩ := exists_drop_of_stmt_ok hstmt hp
      have hturn : Turn all ⟨p, program, errors⟩ ⟨q, program ++ [statement], errors⟩ :=
        .read hp hlt hstmt hq
      obtain ⟨n, last, hturns, hdone, hprogram, herrors⟩ :=
        ih _ (show all.length - q < all.length - p by omega) (hturn.orderly hr) rfl
      refine ⟨n + 1, last, .cons hturn hturns, hdone, ?_, ?_⟩
      · rw [hprogram, stmts_of_ok hpos hstmt, List.append_assoc]
        rfl
      · rw [herrors, stmts_of_ok hpos hstmt]
    | fail w rest =>
      obtain ⟨k, rfl, hpk, hk, -⟩ := exists_drop_of_stmt_fail hstmt hp
      obtain ⟨q, hresume, hresumes⟩ := exists_resume_eq hp hpk hk
      have hturn : Turn all ⟨p, program, errors⟩
          ⟨q, program, errors ++ [errorAt all w (all.drop k)]⟩ := by
        refine .fail hp hlt hstmt ?_
        rwa [position_errorAt_drop hk]
      obtain ⟨n, last, hturns, hdone, hprogram, herrors⟩ :=
        ih _ (show all.length - q < all.length - p by have := hresumes.start_lt; omega)
          (hturn.orderly hr) rfl
      rw [List.length_append, List.length_singleton, Nat.sub_add_eq] at hprogram herrors
      refine ⟨n + 1, last, .cons hturn hturns, hdone, ?_, ?_⟩
      · rw [hprogram, stmts_of_fail hne hpos hstmt, hresume]
      · rw [herrors, stmts_of_fail hne hpos hstmt, hresume, List.append_assoc]
        rfl
    | outOfFuel => exact absurd hstmt (stmt_ne_outOfFuel _)

/-- **Recovery from errors.** Every list of tokens is read in turns, no more than there are tokens; each
turn reads a statement or reports one error, and goes on from there as `Turn` says. Reading ends at the
end of the tokens or with the twentieth error. The errors stand at later and later positions, none of
them beyond the end, and each has the span of what stands at its position. -/
theorem recovery_of_stmts (ts : List Lexeme) :
    ∃ n last, Turns ts n .start last ∧ n ≤ ts.length ∧ last.Done ts ∧
      stmts ts maxErrors ts = (last.program, last.errors) ∧ last.errors.length ≤ 20 ∧
      (last.errors.map (·.position)).Pairwise (· < ·) ∧
      ∀ e ∈ last.errors, e.position ≤ ts.length ∧ IsAt ts e := by
  have hstart := Reader.orderly_start ts
  obtain ⟨n, last, hturns, hdone, hprogram, herrors⟩ := exists_turns hstart
  have hlast := hturns.orderly hstart
  refine ⟨n, last, hturns, hturns.add_position_le hstart.position_le, hdone, ?_, hlast.length_le,
    hlast.increasing, fun e he => ⟨?_, hlast.isAt e he⟩⟩
  · rw [hprogram, herrors]
    rfl
  · rcases hlast.behind e he with hbehind | ⟨heq, -⟩
    · exact Nat.le_trans (Nat.le_of_lt hbehind) hlast.position_le
    · exact heq ▸ hlast.position_le

/-- A definition that breaks off at a `puts`, the statement of this `puts`, and a stray parenthesis. -/
def brokenDefine : List Lexeme :=
  [.keyword .define, .name "x", .keyword .puts, .integer 1, .symbol .closeParen].map
    fun t => ⟨t, default⟩

/-- The first error of `brokenDefine` is at the `puts`, where reading goes on: the statement is read, and
the second error is behind it. -/
theorem recovery_of_stmts_brokenDefine :
    ∃ n last, Turns brokenDefine n .start last ∧ n ≤ 5 ∧
      last.program = [.puts default (.integer default 1)] ∧
      last.errors.map (·.position) = [2, 4] ∧
      IsAt brokenDefine ⟨2, default, .token (.keyword .as_), some (.keyword .puts)⟩ := by
  have hstmts : stmts brokenDefine maxErrors brokenDefine
      = ([.puts default (.integer default 1)],
        [⟨2, default, .token (.keyword .as_), some (.keyword .puts)⟩,
          ⟨4, default, .expression, some (.symbol .closeParen)⟩]) := by decide +kernel
  obtain ⟨n, last, hturns, hn, -, heq, -, -, hat⟩ := recovery_of_stmts brokenDefine
  obtain ⟨hprogram, herrors⟩ := Prod.mk.inj (hstmts.symm.trans heq)
  refine ⟨n, last, hturns, hn, hprogram.symm, ?_, (hat _ ?_).2⟩
  · rw [← herrors]
    rfl
  · rw [← herrors]
    exact List.mem_cons_self

end Duet.Parser
