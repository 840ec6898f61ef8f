import Duet.Proofs.SpanSlices
import Duet.Proofs.TokenPatterns

/-!
# Every byte of a source is accounted for

Lexing takes the longest match of the patterns of `TokenPatterns`. `Accounted` says what that means
for the tokens of a source: each spells what stands at its span, no pattern matches more at its
start, and all that is left before, between and behind the tokens are blanks and comments. `Stopped`
says what it means for the place of an error: what stands before it has tokens of its own, and no
pattern matches there. `lex_accounted` is both.

The one step is `takesAtLeast_of_mem_declared`: wherever a text begins with a match of some pattern,
the lexer passes over a blank or a comment or takes a token that is at least as long. What comes
before a token or an error plays no part in it, and what comes behind can be cut off
(`exists_of_lexFrom_error`).
-/

namespace Duet

open scoped Computability

/-! ## Slices -/

/-- A text that is split at a byte is in two parts, and the first has so many bytes. -/
theorem eq_of_splitAtByte? {n : Nat} {cs front back : List Char}
    (h : splitAtByte? n cs = some (front, back)) : cs = front ++ back ∧ byteLength front = n := by
  induction cs generalizing n front with
  | nil =>
    unfold splitAtByte? at h
    split at h
    · next hn =>
      obtain ⟨rfl, rfl⟩ := Prod.mk.inj (Option.some.inj h)
      exact ⟨rfl, hn.symm⟩
    · cases h
  | cons c cs ih =>
    unfold splitAtByte? at h
    split at h
    · next hn =>
      obtain ⟨rfl, rfl⟩ := Prod.mk.inj (Option.some.inj h)
      exact ⟨rfl, hn.symm⟩
    split at h
    · next hle =>
      obtain ⟨⟨front', back'⟩, hsplit, heq⟩ := Option.map_eq_some_iff.mp h
      obtain ⟨rfl, rfl⟩ := Prod.mk.inj heq
      obtain ⟨rfl, hlength⟩ := ih hsplit
      refine ⟨rfl, ?_⟩
      rw [byteLength_cons, hlength]
      omega
    · cases h

/-- A slice that begins behind some characters is the beginning of what follows them. -/
theorem prefix_of_slice? {source part : String} {before tail : List Char} {stop : Nat}
    (hsource : source.toList = before ++ tail)
    (h : slice? source ⟨byteLength before, stop⟩ = some part) :
    part.toList <+: tail ∧ stop = byteLength before + byteLength part.toList := by
  unfold slice? at h
  split at h
  · next hle =>
    rw [hsource, splitAtByte?_byteLength] at h
    obtain ⟨⟨front, back⟩, hsplit, rfl⟩ := Option.map_eq_some_iff.mp h
    obtain ⟨rfl, hlength⟩ := eq_of_splitAtByte? hsplit
    rw [String.toList_ofList, hlength]
    exact ⟨List.prefix_append _ _, (Nat.add_sub_cancel' hle).symm⟩
  · cases h

namespace Lexer

open Pattern

/-! ## The longest match -/

/-- What was found is a blank, a comment or a token of at least `n` characters. -/
def Scan.TakesAtLeast (n : Nat) : Scan → Prop
  | .skip _ _ => True
  | .token _ spelled _ => n ≤ spelled.length
  | .stuck _ => False

/-- A beginning made of a class is not longer than the longest one. -/
theorem length_le_takeWhile {p : Char → Bool} {m cs : List Char} (hm : ∀ d ∈ m, p d = true)
    (hbegins : m <+: cs) : m.length ≤ (cs.takeWhile p).length := by
  obtain ⟨rest, rfl⟩ := hbegins
  rw [List.takeWhile_append_of_pos hm, List.length_append]
  exact Nat.le_add_right _ _

/-- Where a comment begins, there is no length to reach. -/
theorem takesAtLeast_of_split? {c : Char} {cs body rest : List Char}
    (h : Comment.split? (c :: cs) = some (body, rest)) (n : Nat) : (scan c cs).TakesAtLeast n := by
  have hslash : c = '/' := by
    refine Decidable.byContradiction fun hne => ?_
    rw [Comment.split?_of_ne hne] at h
    cases h
  subst hslash
  rw [scan_comment h]
  trivial

/-- Where a text begins with a spelling of a token, at least as much is taken. -/
theorem takesAtLeast_of_spelledAs {t : Token} {m : List Char} (hm : SpelledAs t m) {c : Char}
    {cs : List Char} (hbegins : m <+: c :: cs) : (scan c cs).TakesAtLeast m.length := by
  cases hm with
  | integer hc htail =>
    obtain ⟨rfl, htake⟩ := List.cons_prefix_cons.mp hbegins
    rw [scan_of_isDigit hc]
    exact Nat.succ_le_succ (length_le_takeWhile htail htake)
  | word hc htail =>
    obtain ⟨rfl, htake⟩ := List.cons_prefix_cons.mp hbegins
    rw [scan_of_isAlpha hc]
    exact Nat.succ_le_succ (length_le_takeWhile htail htake)
  | text hvalue =>
    obtain ⟨rfl, rest, rfl⟩ := List.cons_prefix_cons.mp hbegins
    rw [List.append_assoc, List.singleton_append, scan_text hvalue]
    exact Nat.le_refl _
  | symbol hsign =>
    obtain ⟨rfl, -⟩ := List.cons_prefix_cons.mp hbegins
    cases hcomment : Comment.split? (_ :: cs) with
    | none =>
      rw [scan_symbol hsign hcomment]
      exact Nat.le_refl _
    | some found => exact takesAtLeast_of_split? hcomment _
  | notEqual =>
    obtain ⟨rfl, rest, rfl⟩ := List.cons_prefix_cons.mp hbegins
    exact Nat.le_refl _

/-- Where a text begins with a match of some pattern, at least as much is taken, or a blank or a
comment is passed over. -/
theorem takesAtLeast_of_mem_declared {m : List Char} (hm : m ∈ declared) {c : Char}
    {cs : List Char} (hbegins : m <+: c :: cs) : (scan c cs).TakesAtLeast m.length := by
  rcases (Language.mem_add _ _ _).mp hm with hskipped | htoken
  · rcases (Language.mem_add _ _ _).mp hskipped with hblanks | hcomment
    · obtain ⟨b, tail, hb, -, rfl⟩ := mem_repeated_oneOf.mp hblanks
      obtain ⟨rfl, -⟩ := List.cons_prefix_cons.mp hbegins
      rw [scan, if_pos hb]
      trivial
    · obtain ⟨body, hbody⟩ := mem_comment_iff.mp hcomment
      obtain ⟨rest, hrest⟩ := hbegins
      have hsplit := Comment.split?_append hbody rest
      rw [hrest] at hsplit
      exact takesAtLeast_of_split? hsplit _
  · obtain ⟨t, ht⟩ := mem_token_iff.mp htoken
    exact takesAtLeast_of_spelledAs ht hbegins

/-! ## Gaps -/

/-- What the lexer skips is blanks and comments. -/
theorem mem_skipped_of_scan {c : Char} {cs passed rest : List Char}
    (h : scan c cs = .skip passed rest) : passed ∈ skipped := by
  rcases scan_skip_cases h with ⟨hblank, rfl, -⟩ | ⟨body, inner, -, -, hclose, rfl⟩
  · have hblanks : [c] ∈ blanks :=
      mem_repeated_oneOf.mpr ⟨c, [], hblank, List.forall_mem_nil _, rfl⟩
    exact (Language.mem_add _ _ _).mpr (.inl hblanks)
  · have hcomment : '/' :: '*' :: (body ++ ['*', '/']) ∈ comment :=
      mem_comment_iff.mpr ⟨body, Comment.splitAtClose_append hclose []⟩
    exact (Language.mem_add _ _ _).mpr (.inr hcomment)

/-- The gaps of a text are blanks and comments. -/
theorem Divides.gap_mem_skipped {text : List Char} {ps : List Part} (h : Divides text ps) :
    ∀ passed, Part.gap passed ∈ ps → passed ∈ skipped := by
  induction h with
  | nil => nofun
  | gap hscan _ ih =>
    intro passed hmem
    rcases List.mem_cons.mp hmem with heq | hmem
    · cases heq
      exact mem_skipped_of_scan hscan
    · exact ih passed hmem
  | token _ _ ih =>
    intro passed hmem
    rcases List.mem_cons.mp hmem with heq | hmem
    · cases heq
    · exact ih passed hmem

end Lexer

/-- The spans between tokens from `start` on, up to the end of a source of `size` bytes. -/
def gapsFrom (size : Nat) : (start : Nat) → List Lexeme → List Span
  | start, [] => [⟨start, size⟩]
  | start, l :: ls => ⟨start, l.span.start⟩ :: gapsFrom size l.span.stop ls

/-- The spans before the first token, between two tokens and behind the last one. -/
def gaps (source : String) (ls : List Lexeme) : List Span :=
  gapsFrom (byteLength source.toList) 0 ls

namespace Lexer

open Pattern

/-- A part of a source that belongs to a language is the slice at its span. -/
theorem exists_slice_of_mem {source : String} {before part after : List Char}
    {L : Language Char} (hsource : source.toList = before ++ (part ++ after)) (hpart : part ∈ L) :
    ∃ found, slice? source ⟨byteLength before, byteLength before + byteLength part⟩ = some found ∧
      found.toList ∈ L :=
  ⟨_, slice?_of_append hsource, by rwa [String.toList_ofList]⟩

/-- The gaps behind some characters of a source, the first of which has begun with `passed`. -/
theorem skipped_of_mem_gapsFrom {source : String} {before passed : List Char} {ps : List Part}
    (hsource : source.toList = before ++ (passed ++ Part.texts ps)) (hpassed : passed ∈ skipped∗)
    (hps : ∀ more, Part.gap more ∈ ps → more ∈ skipped) :
    ∀ s ∈ gapsFrom (byteLength source.toList) (byteLength before)
        (place (byteLength before + byteLength passed) ps),
      ∃ part, slice? source s = some part ∧ part.toList ∈ skipped∗ := by
  induction ps generalizing before passed with
  | nil =>
    refine List.forall_mem_singleton.mpr ?_
    simpa [hsource] using exists_slice_of_mem hsource hpassed
  | cons p ps ih =>
    have htail (more : List Char) (hmore : Part.gap more ∈ ps) : more ∈ skipped :=
      hps more (List.mem_cons_of_mem p hmore)
    cases p with
    | gap more =>
      -- The gap goes on, so it is not listed yet.
      have hmore := mem_kstar_append hpassed (hps more List.mem_cons_self)
      have hnext : source.toList = before ++ (passed ++ more ++ Part.texts ps) := by
        rw [hsource, Part.texts_cons, List.append_assoc]
        rfl
      simpa [place, Nat.add_assoc] using ih hnext hmore htail
    | token found spelled =>
      have hnext : source.toList = before ++ (passed ++ spelled) ++ ([] ++ Part.texts ps) := by
        rw [hsource]
        simp [Part.text]
      refine List.forall_mem_cons.mpr ⟨exists_slice_of_mem hsource hpassed, ?_⟩
      simpa [Nat.add_assoc] using ih hnext (Language.nil_mem_kstar _) htail

/-! ## Tokens and errors -/

/-- A token of a text is found where it stands. -/
theorem Divides.exists_scan {text : List Char} {ps : List Part} (h : Divides text ps) {offset : Nat}
    {l : Lexeme} (hl : l ∈ place offset ps) :
    ∃ before c cs spelled rest, text = before ++ c :: cs ∧ c :: cs = spelled ++ rest ∧
      scan c cs = .token l.token spelled rest ∧
      l.span = ⟨offset + byteLength before, offset + byteLength before + byteLength spelled⟩ := by
  induction h generalizing offset with
  | nil => cases hl
  | @gap c _ _ _ _ hscan _ ih =>
    obtain ⟨tail, rfl, rfl, -⟩ := scan_skip hscan
    obtain ⟨before, d, ds, spelled, rest, rfl, hspelled, hfound, hspan⟩ := ih hl
    refine ⟨c :: tail ++ before, d, ds, spelled, rest, by simp, hspelled, hfound, ?_⟩
    rw [hspan, byteLength_append, Nat.add_assoc offset]
  | @token c _ _ _ _ _ hscan _ ih =>
    obtain ⟨tail, rfl, rfl, -⟩ := scan_token hscan
    rcases List.mem_cons.mp hl with rfl | hl
    · exact ⟨[], _, _, _, _, rfl, rfl, hscan, rfl⟩
    · obtain ⟨before, d, ds, spelled, rest, rfl, hspelled, hfound, hspan⟩ := ih hl
      refine ⟨c :: tail ++ before, d, ds, spelled, rest, by simp, hspelled, hfound, ?_⟩
      rw [hspan, byteLength_append, Nat.add_assoc offset]

/-- Where lexing stops, nothing is found, and what stands before is taken apart on its own. -/
theorem exists_of_lexFrom_error {offset : Nat} {text : List Char} {e : LexError}
    (h : lexFrom offset text = .error e) :
    ∃ ps c cs, text = Part.texts ps ++ c :: cs ∧ Divides (Part.texts ps) ps ∧
      scan c cs = .stuck e.snippet ∧ e.position = offset + byteLength (Part.texts ps) := by
  fun_induction lexFrom offset text with
  | case1 => cases h
  | case2 offset c cs passed rest hscan ih =>
    obtain ⟨ps, d, ds, rfl, hps, hstuck, hposition⟩ := ih h
    obtain ⟨tail, rfl, rfl, hlocal⟩ := scan_skip hscan
    refine ⟨.gap (c :: tail) :: ps, d, ds, by simp [Part.text], .gap (hlocal _) hps, hstuck, ?_⟩
    simp [hposition, Part.text, Nat.add_assoc]
  | case3 => cases h
  | case4 offset c cs found spelled rest hscan stop e' hrest ih =>
    cases h
    obtain ⟨ps, d, ds, rfl, hps, hstuck, hposition⟩ := ih hrest
    obtain ⟨tail, rfl, rfl, hspelled, hdetached⟩ := scan_token hscan
    have hcut := scan_of_spelledAs hspelled hdetached.of_append
    refine ⟨.token found (c :: tail) :: ps, d, ds, by simp [Part.text], .token hcut hps, hstuck, ?_⟩
    simp [hposition, stop, Part.text, Nat.add_assoc]
  | case5 offset c cs snippet hscan =>
    cases h
    exact ⟨[], c, cs, rfl, .nil, hscan, rfl⟩

end Lexer

open Lexer.Pattern (skipped declared)

/-- The tokens account for every byte of the source. -/
structure Accounted (source : String) (ls : List Lexeme) : Prop where
  start_lt_stop : ∀ l ∈ ls, l.span.start < l.span.stop
  apart : ls.Pairwise fun l l' => l.span.stop ≤ l'.span.start
  /-- What stands at the span of a token spells it. -/
  spelled : ∀ l ∈ ls, ∃ part, slice? source l.span = some part ∧ l.token.WellSpelled ∧
    l.token.IsSpelling part.toList
  /-- What stands before, between and behind the tokens is passed over. -/
  skipped : ∀ s ∈ gaps source ls, ∃ part, slice? source s = some part ∧ part.toList ∈ skipped∗
  /-- No pattern matches more where a token begins. -/
  longest : ∀ l ∈ ls, ∀ stop part, slice? source ⟨l.span.start, stop⟩ = some part →
    part.toList ∈ declared → stop ≤ l.span.stop

/-- The source can be read up to this place and not there. -/
structure Stopped (source : String) (position : Nat) : Prop where
  lt_length : position < byteLength source.toList
  /-- What stands before has tokens of its own. -/
  readable : ∃ front ls, slice? source ⟨0, position⟩ = some front ∧ lex front = .ok ls
  /-- No pattern matches here. -/
  not_declared : ∀ stop part, slice? source ⟨position, stop⟩ = some part → part.toList ∉ declared

/-- A beginning of a text has no more bytes than the text. -/
theorem byteLength_le_of_isPrefix {a b : List Char} (h : a <+: b) :
    byteLength a ≤ byteLength b := by
  obtain ⟨rest, rfl⟩ := h
  rw [byteLength_append]
  exact Nat.le_add_right _ _

/-- Where lexing succeeds, the tokens account for the whole source. -/
theorem accounted_of_lex {source : String} {ls : List Lexeme} (h : lex source = .ok ls) :
    Accounted source ls := by
  obtain ⟨ps, hps, rfl⟩ := Lexer.lexFrom_eq_ok_iff.mp h
  refine ⟨hps.start_lt_stop 0, (Lexer.ordered_place 0 ps).1.apart, ?_, ?_, ?_⟩
  · intro l hl
    obtain ⟨before, c, cs, spelled, rest, hsource, hspelled, hscan, hspan⟩ := hps.exists_scan hl
    obtain ⟨-, -, -, hfound, -⟩ := Lexer.scan_token hscan
    rw [hspelled] at hsource
    rw [hspan, Nat.zero_add]
    refine ⟨_, slice?_of_append hsource, ?_⟩
    rw [String.toList_ofList]
    exact Lexer.spelledAs_iff.mp hfound
  · have hsource : source.toList = [] ++ ([] ++ Lexer.Part.texts ps) := hps.texts_eq.symm
    exact Lexer.skipped_of_mem_gapsFrom hsource (Language.nil_mem_kstar _) hps.gap_mem_skipped
  · intro l hl stop part hslice hpart
    obtain ⟨before, c, cs, spelled, rest, hsource, hspelled, hscan, hspan⟩ := hps.exists_scan hl
    rw [Nat.zero_add] at hspan
    rw [hspan] at hslice ⊢
    obtain ⟨hbegins, rfl⟩ := prefix_of_slice? hsource hslice
    have htakes := Lexer.takesAtLeast_of_mem_declared hpart hbegins
    rw [hscan] at htakes
    have hshorter : part.toList <+: spelled :=
      List.prefix_of_prefix_length_le hbegins (hspelled ▸ List.prefix_append _ _) htakes
    exact Nat.add_le_add_left (byteLength_le_of_isPrefix hshorter) _

/-- Where lexing fails, the source can be read up to there and no further. -/
theorem stopped_of_lex {source : String} {e : LexError} (h : lex source = .error e) :
    Stopped source e.position := by
  obtain ⟨ps, c, cs, hsource, hps, hscan, hposition⟩ := Lexer.exists_of_lexFrom_error h
  rw [Nat.zero_add] at hposition
  rw [hposition]
  refine ⟨?_, ?_, ?_⟩
  · rw [hsource, byteLength_append]
    exact Nat.lt_add_of_pos_right (Nat.add_pos_left c.utf8Size_pos _)
  · refine ⟨String.ofList (Lexer.Part.texts ps), Lexer.place 0 ps, ?_, ?_⟩
    · have hfront : source.toList = [] ++ (Lexer.Part.texts ps ++ c :: cs) := hsource
      simpa using slice?_of_append hfront
    · rw [lex, String.toList_ofList]
      exact Lexer.lexFrom_of_divides hps 0
  · intro stop part hslice hpart
    have hbegins := (prefix_of_slice? hsource hslice).1
    have htakes := Lexer.takesAtLeast_of_mem_declared hpart hbegins
    rw [hscan] at htakes
    exact htakes

/-- **Lexing accounts for every byte.** The tokens of a source that is read are not empty, follow
one another, spell what stands at their spans and are the longest matches there, and what is left of
the source is blanks and comments. Where lexing fails, no pattern matches, and the text before that
place is read on its own. -/
theorem lex_accounted (source : String) :
    (∀ ls, lex source = .ok ls → Accounted source ls) ∧
      ∀ e, lex source = .error e → Stopped source e.position :=
  ⟨fun _ => accounted_of_lex, fun _ => stopped_of_lex⟩

/-- Zeros in front of an integer, a comment, a text with a `*/` in it, and a `/*` that is never
closed. -/
def openComment : String :=
  "007/**/\"é*/\"/* end?~="

/-- The tokens of `openComment`. -/
def openCommentTokens : List Lexeme :=
  [⟨.integer 7, ⟨0, 3⟩⟩, ⟨.text "é*/", ⟨7, 13⟩⟩, ⟨.symbol .slash, ⟨13, 14⟩⟩,
    ⟨.symbol .star, ⟨14, 15⟩⟩, ⟨.name "end?", ⟨16, 20⟩⟩, ⟨.symbol .notEqual, ⟨20, 22⟩⟩]

/-- A comment and a text that are never closed. -/
def openText : String :=
  "/* \"1"

/-- The tokens of `openComment` account for all of it; `openText` can be read up to its open text
only. -/
theorem lex_accounted_openComment :
    lex openComment = .ok openCommentTokens ∧ Accounted openComment openCommentTokens ∧
      lex openText = .error ⟨3, ['"', '1']⟩ ∧ Stopped openText 3 := by
  have hok : lex openComment = .ok openCommentTokens := by decide +kernel
  have herror : lex openText = .error ⟨3, ['"', '1']⟩ := by decide +kernel
  exact ⟨hok, (lex_accounted openComment).1 _ hok, herror, (lex_accounted openText).2 _ herror⟩

end Duet
