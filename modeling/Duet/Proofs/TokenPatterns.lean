import Mathlib.Computability.Language
import Duet.Proofs.LexerParts

/-!
# The patterns of tokens, blanks and comments

The lexical rules of the language as patterns: sets of texts, put together from classes of
characters by choice, sequence and repetition. They say which texts are tokens, blanks and comments,
and nothing about how a text is searched for them.

`mem_token_iff` ties them to tokens: a text matches one of the patterns of tokens exactly if it
spells some token. What a spelling is, is said without the lexer as well (`Token.IsSpelling`), and
`spelledAs_iff` says that the lexer takes just these. `mem_comment_iff` ties the pattern of
comments, which has to keep `*/` out of a comment by its form, to the search for the first `*/`.
-/

namespace Duet

namespace Lexer

namespace Pattern

open scoped Computability

/-- One character of a class. -/
def oneOf (p : Char → Bool) : Language Char :=
  {cs | ∃ c, p c = true ∧ cs = [c]}

/-- The pattern at least once. -/
def repeated (L : Language Char) : Language Char :=
  L * L∗

/-- Blanks: `[ \t\r\n\f]+`. -/
def blanks : Language Char :=
  repeated (oneOf isBlank)

/-- What may stand inside a comment: `[^*]|\*+[^*/]`. -/
def commentPiece : Language Char :=
  oneOf (· ≠ '*') + repeated (oneOf (· = '*')) * oneOf fun c => c ≠ '*' && c ≠ '/'

/-- What follows the opening of a comment: `([^*]|\*+[^*/])*\*+/`. -/
def commentTail : Language Char :=
  commentPiece∗ * repeated (oneOf (· = '*')) * oneOf (· = '/')

/-- Comments: `/\*([^*]|\*+[^*/])*\*+/`. -/
def comment : Language Char :=
  oneOf (· = '/') * oneOf (· = '*') * commentTail

/-- Integers: `[0-9]+`. -/
def integer : Language Char :=
  repeated (oneOf Char.isDigit)

/-- Texts in quotes: `"[^"]*"`. -/
def text : Language Char :=
  oneOf (· = '"') * (oneOf isTextChar)∗ * oneOf (· = '"')

/-- Words: `[A-Za-z][A-Za-z0-9?]*`. -/
def word : Language Char :=
  oneOf Char.isAlpha * (oneOf isNameChar)∗

/-- The reserved words. -/
def keyword : Language Char :=
  {cs | ∃ k : Keyword, cs = k.spelling.toList}

/-- The symbols. -/
def symbol : Language Char :=
  {cs | ∃ sign : Symbol, cs = sign.spelling.toList}

/-- What is passed over between tokens. -/
def skipped : Language Char :=
  blanks + comment

/-- The patterns of tokens. -/
def token : Language Char :=
  keyword + symbol + integer + text + word

/-- All patterns. -/
def declared : Language Char :=
  skipped + token

/-! ## Repetition -/

/-- One character of a class. -/
theorem mem_oneOf {p : Char → Bool} {cs : List Char} :
    cs ∈ oneOf p ↔ ∃ c, p c = true ∧ cs = [c] :=
  Iff.rfl

/-- A pattern with a character of a class behind it. -/
theorem mem_mul_oneOf {p : Char → Bool} {L : Language Char} {cs : List Char} :
    cs ∈ L * oneOf p ↔ ∃ front c, front ∈ L ∧ p c = true ∧ cs = front ++ [c] := by
  rw [Language.mem_mul]
  constructor
  · rintro ⟨front, hfront, _, ⟨c, hc, rfl⟩, rfl⟩
    exact ⟨front, c, hfront, hc, rfl⟩
  · rintro ⟨front, c, hfront, hc, rfl⟩
    exact ⟨front, hfront, [c], ⟨c, hc, rfl⟩, rfl⟩

/-- A pattern with a character of a class in front of it. -/
theorem mem_oneOf_mul {p : Char → Bool} {L : Language Char} {cs : List Char} :
    cs ∈ oneOf p * L ↔ ∃ c tail, p c = true ∧ tail ∈ L ∧ cs = c :: tail := by
  rw [Language.mem_mul]
  constructor
  · rintro ⟨_, ⟨c, hc, rfl⟩, tail, htail, rfl⟩
    exact ⟨c, tail, hc, htail, rfl⟩
  · rintro ⟨c, tail, hc, htail, rfl⟩
    exact ⟨[c], ⟨c, hc, rfl⟩, tail, htail, rfl⟩

/-- One more repetition in front. -/
theorem append_mem_kstar {L : Language Char} {piece cs : List Char} (hpiece : piece ∈ L)
    (hcs : cs ∈ L∗) : piece ++ cs ∈ L∗ :=
  (mul_kstar_le_kstar : L * L∗ ≤ L∗) (Language.append_mem_mul hpiece hcs)

/-- One more repetition at the end. -/
theorem mem_kstar_append {L : Language Char} {piece cs : List Char} (hcs : cs ∈ L∗)
    (hpiece : piece ∈ L) : cs ++ piece ∈ L∗ :=
  (kstar_mul_le_kstar : L∗ * L ≤ L∗) (Language.append_mem_mul hcs hpiece)

/-- Any number of characters of a class. -/
theorem mem_kstar_oneOf {p : Char → Bool} {cs : List Char} :
    cs ∈ (oneOf p)∗ ↔ ∀ c ∈ cs, p c = true := by
  constructor
  · intro h
    obtain ⟨pieces, rfl, hpieces⟩ := Language.mem_kstar.mp h
    intro c hc
    obtain ⟨piece, hpiece, hc⟩ := List.mem_flatten.mp hc
    obtain ⟨d, hd, rfl⟩ := hpieces piece hpiece
    exact List.mem_singleton.mp hc ▸ hd
  · intro h
    induction cs with
    | nil => exact Language.nil_mem_kstar _
    | cons c cs ih =>
      obtain ⟨hc, hcs⟩ := List.forall_mem_cons.mp h
      exact append_mem_kstar (mem_oneOf.mpr ⟨c, hc, rfl⟩) (ih hcs)

/-- At least one character of a class. -/
theorem mem_repeated_oneOf {p : Char → Bool} {cs : List Char} :
    cs ∈ repeated (oneOf p) ↔
      ∃ c tail, p c = true ∧ (∀ d ∈ tail, p d = true) ∧ cs = c :: tail := by
  rw [repeated, mem_oneOf_mul]
  simp only [mem_kstar_oneOf]

/-- A word is a letter and behind it characters of names. -/
theorem mem_word {cs : List Char} :
    cs ∈ word ↔ ∃ c tail, c.isAlpha = true ∧ (∀ d ∈ tail, isNameChar d = true) ∧
      cs = c :: tail := by
  rw [word, mem_oneOf_mul]
  simp only [mem_kstar_oneOf]

/-- A text is characters other than quotes, in quotes. -/
theorem mem_text {cs : List Char} :
    cs ∈ text ↔ ∃ value, (∀ d ∈ value, isTextChar d = true) ∧ cs = '"' :: (value ++ ['"']) := by
  simp only [text, mem_mul_oneOf, mem_oneOf_mul, mem_kstar_oneOf, decide_eq_true_eq]
  constructor
  · rintro ⟨_, _, ⟨_, value, rfl, hvalue, rfl⟩, rfl, rfl⟩
    exact ⟨value, hvalue, rfl⟩
  · rintro ⟨value, hvalue, rfl⟩
    exact ⟨_, _, ⟨_, value, rfl, hvalue, rfl⟩, rfl, rfl⟩

/-! ## Comments -/

/-- The text ends with the first `*/` in it. -/
def Closes (cs : List Char) : Prop :=
  ∃ body, Comment.splitAtClose cs = some (body, [])

/-- Another character in front does not close a text earlier, unless it makes a `*/`. -/
theorem Closes.cons {c : Char} {cs : List Char} (h : Closes cs)
    (hopen : c = '*' → cs.head? ≠ some '/') : Closes (c :: cs) := by
  obtain ⟨body, hbody⟩ := h
  refine ⟨c :: body, ?_⟩
  rw [Comment.splitAtClose, hbody]
  rintro rest rfl rfl
  exact hopen rfl rfl

/-- More stars in front of the last one do not close a text earlier. -/
theorem Closes.stars {stars cs : List Char} (hstars : ∀ d ∈ stars, d = '*')
    (h : Closes ('*' :: cs)) : Closes ('*' :: (stars ++ cs)) := by
  induction stars with
  | nil => exact h
  | cons d stars ih =>
    obtain ⟨rfl, hrest⟩ := List.forall_mem_cons.mp hstars
    exact (ih hrest).cons nofun

/-- A piece of a comment does not close it. -/
theorem Closes.piece {piece cs : List Char} (hpiece : piece ∈ commentPiece) (h : Closes cs) :
    Closes (piece ++ cs) := by
  rcases (Language.mem_add _ _ _).mp hpiece with ⟨c, hc, rfl⟩ | hpiece
  · exact h.cons fun hstar => absurd hstar (of_decide_eq_true hc)
  · obtain ⟨_, c, hfront, hc, rfl⟩ := mem_mul_oneOf.mp hpiece
    obtain ⟨d, stars, hd, hstars, rfl⟩ := mem_repeated_oneOf.mp hfront
    simp only [Bool.and_eq_true, decide_eq_true_eq] at hc hd hstars
    have hnext : Closes ('*' :: c :: cs) :=
      (h.cons fun hstar => absurd hstar hc.1).cons fun _ => by simpa using hc.2
    simpa [hd] using hnext.stars hstars

/-- The pieces of a comment do not close it. -/
theorem Closes.pieces {body cs : List Char} (hbody : body ∈ commentPiece∗) (h : Closes cs) :
    Closes (body ++ cs) := by
  obtain ⟨pieces, rfl, hpieces⟩ := Language.mem_kstar.mp hbody
  clear hbody
  induction pieces with
  | nil => exact h
  | cons piece pieces ih =>
    obtain ⟨hpiece, hrest⟩ := List.forall_mem_cons.mp hpieces
    rw [List.flatten_cons, List.append_assoc]
    exact (ih hrest).piece hpiece

/-- A comment goes on with pieces and ends with stars and a slash. -/
theorem mem_commentTail {cs : List Char} :
    cs ∈ commentTail ↔ ∃ body stars, body ∈ commentPiece∗ ∧ (∀ d ∈ stars, d = '*') ∧
      cs = body ++ '*' :: (stars ++ ['/']) := by
  rw [commentTail, mem_mul_oneOf]
  simp only [Language.mem_mul, mem_repeated_oneOf, decide_eq_true_eq]
  constructor
  · rintro ⟨_, _, ⟨body, hbody, _, ⟨_, stars, rfl, hstars, rfl⟩, rfl⟩, rfl, rfl⟩
    exact ⟨body, stars, hbody, hstars, by simp⟩
  · rintro ⟨body, stars, hbody, hstars, rfl⟩
    exact ⟨_, _, ⟨body, hbody, _, ⟨_, stars, rfl, hstars, rfl⟩, rfl⟩, rfl, by simp⟩

/-- A piece in front of what may end a comment may end one too. -/
theorem append_mem_commentTail {piece cs : List Char} (hpiece : piece ∈ commentPiece)
    (h : cs ∈ commentTail) : piece ++ cs ∈ commentTail := by
  obtain ⟨body, stars, hbody, hstars, rfl⟩ := mem_commentTail.mp h
  rw [← List.append_assoc]
  exact mem_commentTail.mpr ⟨piece ++ body, stars, append_mem_kstar hpiece hbody, hstars, rfl⟩

/-- A star may be put in front of what follows the opening of a comment, unless this makes a
`*/`. -/
theorem star_cons_mem_commentTail {cs : List Char} (h : cs ∈ commentTail)
    (hopen : cs.head? ≠ some '/') : '*' :: cs ∈ commentTail := by
  obtain ⟨body, stars, hbody, hstars, rfl⟩ := mem_commentTail.mp h
  obtain ⟨pieces, rfl, hpieces⟩ := Language.mem_kstar.mp hbody
  rw [mem_commentTail]
  cases pieces with
  | nil =>
    refine ⟨[], '*' :: stars, Language.nil_mem_kstar _, ?_, rfl⟩
    exact List.forall_mem_cons.mpr ⟨rfl, hstars⟩
  | cons piece pieces =>
    obtain ⟨hpiece, hpieces⟩ := List.forall_mem_cons.mp hpieces
    -- The star becomes part of the first piece.
    refine ⟨'*' :: piece ++ pieces.flatten, stars,
      append_mem_kstar ?_ (Language.join_mem_kstar hpieces), hstars, by simp⟩
    refine (Language.mem_add _ _ _).mpr (.inr (mem_mul_oneOf.mpr ?_))
    rcases (Language.mem_add _ _ _).mp hpiece with ⟨c, hc, rfl⟩ | hpiece
    · refine ⟨['*'], c, mem_repeated_oneOf.mpr ⟨'*', [], rfl, List.forall_mem_nil _, rfl⟩, ?_, rfl⟩
      have hslash : c ≠ '/' := by simpa using hopen
      simp [of_decide_eq_true hc, hslash]
    · obtain ⟨front, c, hfront, hc, rfl⟩ := mem_mul_oneOf.mp hpiece
      obtain ⟨d, more, hd, hmore, rfl⟩ := mem_repeated_oneOf.mp hfront
      refine ⟨'*' :: d :: more, c, mem_repeated_oneOf.mpr ⟨'*', _, rfl, ?_, rfl⟩, hc, rfl⟩
      exact List.forall_mem_cons.mpr ⟨hd, hmore⟩

/-- What follows the opening of a comment ends with the first `*/`. -/
theorem mem_commentTail_iff {cs : List Char} : cs ∈ commentTail ↔ Closes cs := by
  constructor
  · intro h
    obtain ⟨body, stars, hbody, hstars, rfl⟩ := mem_commentTail.mp h
    exact Closes.pieces hbody (Closes.stars hstars ⟨[], rfl⟩)
  · rintro ⟨body, hbody⟩
    fun_induction Comment.splitAtClose cs generalizing body with
    | case1 rest =>
      obtain ⟨-, rfl⟩ := Prod.mk.inj (Option.some.inj hbody)
      exact mem_commentTail.mpr ⟨[], [], Language.nil_mem_kstar _, List.forall_mem_nil _, rfl⟩
    | case2 c cs hopen inner rest hinner ih =>
      obtain ⟨-, rfl⟩ := Prod.mk.inj (Option.some.inj hbody)
      have hcs := ih _ hinner
      by_cases hc : c = '*'
      · subst hc
        refine star_cons_mem_commentTail hcs fun hslash => ?_
        obtain ⟨tail, rfl⟩ := List.head?_eq_some_iff.mp hslash
        exact hopen tail rfl rfl
      · have hpiece : [c] ∈ commentPiece :=
          (Language.mem_add _ _ _).mpr (.inl (mem_oneOf.mpr ⟨c, decide_eq_true hc, rfl⟩))
        exact append_mem_commentTail hpiece hcs
    | case3 | case4 => cases hbody

/-- A text matches the pattern of comments exactly if it is a comment with nothing behind it. -/
theorem mem_comment_iff {cs : List Char} :
    cs ∈ comment ↔ ∃ body, Comment.split? cs = some (body, []) := by
  rw [comment, mul_assoc, mem_oneOf_mul]
  simp only [mem_oneOf_mul, mem_commentTail_iff, decide_eq_true_eq]
  constructor
  · rintro ⟨_, _, rfl, ⟨_, tail, rfl, hclose, rfl⟩, rfl⟩
    exact hclose
  · rintro ⟨body, hbody⟩
    unfold Comment.split? at hbody
    split at hbody
    · next tail => exact ⟨_, _, rfl, ⟨_, tail, rfl, ⟨body, hbody⟩, rfl⟩, rfl⟩
    · cases hbody

end Pattern

end Lexer

/-! ## Spellings -/

/-- A text spells a token: an integer may have zeros in front of its digits, all else is spelled in
one way. -/
def Token.IsSpelling (cs : List Char) : Token → Prop
  | .integer value => ∃ zeros, cs = List.replicate zeros '0' ++ (toString value).toList
  | token => cs = token.spelling.toList

namespace Lexer

/-- A digit is the character of its value. -/
theorem digitChar_of_isDigit {c : Char} (h : c.isDigit = true) :
    c.toNat - '0'.toNat < 10 ∧ Nat.digitChar (c.toNat - '0'.toNat) = c := by
  obtain ⟨hge, hle⟩ := Bool.and_eq_true_iff.mp h
  have hge : 48 ≤ c.toNat := UInt32.le_iff_toNat_le.mp (of_decide_eq_true hge)
  have hle : c.toNat ≤ 57 := UInt32.le_iff_toNat_le.mp (of_decide_eq_true hle)
  have hlt : c.toNat - '0'.toNat < 10 := by
    show c.toNat - 48 < 10
    omega
  refine ⟨hlt, Char.toNat_inj.mp ?_⟩
  rw [Nat.toNat_digitChar_of_lt_ten hlt]
  show 48 + (c.toNat - 48) = c.toNat
  omega

/-- Digits behind those of a positive number are the last digits of the number they make. -/
theorem toDigits_append_eq {cs : List Char} (hcs : ∀ d ∈ cs, d.isDigit = true) {n : Nat}
    (hn : 0 < n) : Nat.toDigits 10 n ++ cs =
      Nat.toDigits 10 (cs.foldl (fun n c => 10 * n + (c.toNat - '0'.toNat)) n) := by
  induction cs generalizing n with
  | nil => simp
  | cons c cs ih =>
    obtain ⟨hc, hcs⟩ := List.forall_mem_cons.mp hcs
    obtain ⟨hlt, hchar⟩ := digitChar_of_isDigit hc
    have hnext := Nat.toDigits_append_toDigits (by decide : 1 < 10) hn hlt
    rw [Nat.toDigits_of_lt_base hlt, hchar] at hnext
    rw [List.foldl_cons, ← ih hcs (by omega), ← hnext, List.append_assoc]
    rfl

/-- Digits that begin with no zero are those of the number they make. -/
theorem toDigits_decimalValue {c : Char} {cs : List Char} (hc : c.isDigit = true)
    (hcs : ∀ d ∈ cs, d.isDigit = true) (hzero : c ≠ '0') :
    Nat.toDigits 10 (decimalValue (c :: cs)) = c :: cs := by
  obtain ⟨hlt, hchar⟩ := digitChar_of_isDigit hc
  have hpos : 0 < c.toNat - '0'.toNat := by
    refine Nat.pos_of_ne_zero fun hvalue => hzero ?_
    rw [← hchar, hvalue]
    rfl
  have hdigits := toDigits_append_eq hcs hpos
  rw [Nat.toDigits_of_lt_base hlt, hchar] at hdigits
  simpa [decimalValue] using hdigits.symm

/-- Digits are zeros and then the digits of the number they make. -/
theorem exists_zeros {c : Char} {cs : List Char} (hc : c.isDigit = true)
    (hcs : ∀ d ∈ cs, d.isDigit = true) :
    ∃ zeros, c :: cs = List.replicate zeros '0' ++ Nat.toDigits 10 (decimalValue (c :: cs)) := by
  induction cs generalizing c with
  | nil =>
    by_cases hzero : c = '0'
    · subst hzero
      exact ⟨0, rfl⟩
    · exact ⟨0, (toDigits_decimalValue hc hcs hzero).symm⟩
  | cons d ds ih =>
    by_cases hzero : c = '0'
    · subst hzero
      obtain ⟨hd, hds⟩ := List.forall_mem_cons.mp hcs
      obtain ⟨zeros, hzeros⟩ := ih hd hds
      exact ⟨zeros + 1, congrArg ('0' :: ·) hzeros⟩
    · exact ⟨0, (toDigits_decimalValue hc hcs hzero).symm⟩

/-- Zeros in front do not change a number. -/
theorem decimalValue_zeros (zeros : Nat) (cs : List Char) :
    decimalValue (List.replicate zeros '0' ++ cs) = decimalValue cs := by
  induction zeros with
  | zero => rfl
  | succ zeros ih => exact ih

/-- Digits are a spelling of their number. -/
theorem spelledAs_digits {cs : List Char} (hne : cs ≠ []) (hcs : ∀ d ∈ cs, d.isDigit = true) :
    SpelledAs (.integer (decimalValue cs)) cs := by
  obtain ⟨c, tail, rfl⟩ := List.exists_cons_of_ne_nil hne
  obtain ⟨hc, htail⟩ := List.forall_mem_cons.mp hcs
  exact .integer hc htail

/-- Zeros in front of the digits of a number do not change what they spell. -/
theorem spelledAs_zeros (zeros value : Nat) :
    SpelledAs (.integer value) (List.replicate zeros '0' ++ Nat.toDigits 10 value) := by
  have hvalue : decimalValue (List.replicate zeros '0' ++ Nat.toDigits 10 value) = value :=
    (decimalValue_zeros zeros _).trans Nat.ofDigitChars_ten_toDigits
  have hdigits : ∀ d ∈ List.replicate zeros '0' ++ Nat.toDigits 10 value, d.isDigit = true := by
    intro d hd
    rcases List.mem_append.mp hd with hd | hd
    · rw [List.eq_of_mem_replicate hd]
      rfl
    · exact Nat.isDigit_of_mem_toDigits (by decide) (by decide) hd
  have hspelled := spelledAs_digits (by simp) hdigits
  rwa [hvalue] at hspelled

/-- A word spells its token. -/
theorem isSpelling_wordToken (word : List Char) : (wordToken word).IsSpelling word := by
  unfold wordToken
  split
  · next k hk =>
    have hspelling : k.spelling = String.ofList word := by simpa using List.find?_some hk
    simp [Token.IsSpelling, Token.spelling, hspelling]
  · simp [Token.IsSpelling, Token.spelling]

/-- The lexer takes a text for a token exactly if the token has a spelling and the text spells
it. -/
theorem spelledAs_iff {t : Token} {cs : List Char} :
    SpelledAs t cs ↔ t.WellSpelled ∧ t.IsSpelling cs := by
  constructor
  · intro h
    cases h with
    | integer hc hcs =>
      refine ⟨trivial, ?_⟩
      obtain ⟨zeros, hzeros⟩ := exists_zeros hc hcs
      exact ⟨zeros, by simpa using hzeros⟩
    | word hc hcs => exact ⟨wellSpelled_wordToken hc hcs, isSpelling_wordToken _⟩
    | text hcs =>
      refine ⟨by simpa [Token.WellSpelled] using hcs, ?_⟩
      simp [Token.IsSpelling, Token.spelling]
    | symbol hsign =>
      refine ⟨trivial, ?_⟩
      unfold Symbol.ofChar? at hsign
      split at hsign <;> cases hsign <;> rfl
    | notEqual => exact ⟨trivial, rfl⟩
  · rintro ⟨hwell, hspelling⟩
    cases t with
    | keyword k =>
      obtain ⟨c, tail, hk, hc, htail, hword⟩ := exists_spelling_keyword k
      have hcs : cs = c :: tail := hspelling.trans hk
      rw [hcs, ← hword]
      exact .word hc (List.all_eq_true.mp htail)
    | symbol sign =>
      obtain rfl := hspelling
      cases sign with
      | notEqual => exact .notEqual
      | _ => exact .symbol rfl
    | integer value =>
      obtain ⟨zeros, rfl⟩ := hspelling
      rw [Nat.toString_eq_repr, Nat.toList_repr]
      exact spelledAs_zeros zeros value
    | text value =>
      obtain rfl := hspelling
      have htext := SpelledAs.text hwell
      simpa [Token.spelling] using htext
    | name x =>
      obtain ⟨c, tail, hx, hc, htail, hkeyword⟩ := hwell
      have hcs : cs = c :: tail := hspelling.trans hx
      have hword : wordToken (c :: tail) = .name x := by
        rw [← hx, wordToken, String.ofList_toList, hkeyword]
      rw [hcs, ← hword]
      exact .word hc htail

namespace Pattern

/-- A text matches a pattern of tokens exactly if it spells a token. -/
theorem mem_token_iff {cs : List Char} : cs ∈ token ↔ ∃ t, SpelledAs t cs := by
  simp only [token, Language.mem_add, integer, mem_repeated_oneOf, mem_text, mem_word]
  constructor
  · rintro ((((⟨k, rfl⟩ | ⟨sign, rfl⟩) | ⟨c, tail, hc, htail, rfl⟩) | ⟨value, hvalue, rfl⟩) |
      ⟨c, tail, hc, htail, rfl⟩)
    · exact ⟨.keyword k, spelledAs_iff.mpr ⟨trivial, rfl⟩⟩
    · exact ⟨.symbol sign, spelledAs_iff.mpr ⟨trivial, rfl⟩⟩
    · exact ⟨_, .integer hc htail⟩
    · exact ⟨_, .text hvalue⟩
    · exact ⟨_, .word hc htail⟩
  · rintro ⟨t, h⟩
    cases h with
    | integer hc hcs => exact .inl (.inl (.inr ⟨_, _, hc, hcs, rfl⟩))
    | word hc hcs => exact .inr ⟨_, _, hc, hcs, rfl⟩
    | text hcs => exact .inl (.inr ⟨_, hcs, rfl⟩)
    | symbol hsign =>
      have hspelling := (spelledAs_iff.mp (.symbol hsign)).2
      exact .inl (.inl (.inl (.inr ⟨_, hspelling⟩)))
    | notEqual => exact .inl (.inl (.inl (.inr ⟨.notEqual, rfl⟩)))

end Pattern

end Lexer

end Duet
