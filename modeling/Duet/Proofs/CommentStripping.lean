import Duet.Proofs.LexerParts

/-!
# Tokens and the removal of comments

Comments are dealt with twice: `Comment.strip` removes them from a text, and the lexer skips them.
This file says when the two agree, in terms of the parts that the lexer takes the text apart into.

* `Part.isSealed`: no comment opens inside the spelling of a token. Only a text has room for one.
  Then stripping removes what the lexer skips and nothing else (`strip_eq_keptTexts`).
* `Part.isApart`: no two tokens run together when the comments between them are gone. Then every
  token is still read where it stands (`divides_keptTexts`).

Both conditions can be computed from the parts of a text.
-/

namespace Duet

namespace Token

/-- Whether a token is a reserved word or a name. -/
def isWord : Token → Bool
  | .keyword _ | .name _ => true
  | _ => false

/-- Whether a token is a number. -/
def isInteger : Token → Bool
  | .integer _ => true
  | _ => false

/-- Whether a token is a text. -/
def isText : Token → Bool
  | .text _ => true
  | _ => false

end Token

namespace Comment

/-- Nothing is left of an empty text. -/
theorem strip_nil : strip [] = [] := by
  rw [strip]
  rfl

/-- Of a comment at the start of a text only its line breaks are left. -/
theorem strip_of_split? {text body rest : List Char} (h : split? text = some (body, rest)) :
    strip text = body.filter (· = '\n') ++ strip rest := by
  rw [strip]
  split <;> simp_all

/-- A character with which no comment begins is left as it is. -/
theorem strip_cons {c : Char} {cs : List Char} (h : split? (c :: cs) = none) :
    strip (c :: cs) = c :: strip cs := by
  rw [strip]
  split <;> simp_all

/-- A comment at the front is removed whatever follows it. -/
theorem strip_comment_append {cs body rest : List Char} (h : splitAtClose cs = some (body, rest))
    (r : List Char) :
    strip ('/' :: '*' :: (body ++ ['*', '/']) ++ r) = body.filter (· = '\n') ++ strip r := by
  refine strip_of_split? ?_
  simpa [split?] using splitAtClose_append h r

/-- Whether a comment opens in front of one of the characters of `spelled`, if `rest` follows. -/
def opensInside : (spelled rest : List Char) → Bool
  | [], _ => false
  | c :: cs, rest => (split? (c :: cs ++ rest)).isSome || opensInside cs rest

/-- A spelling in which no comment opens is left as it is. -/
theorem strip_append_of_not_opensInside {spelled rest : List Char}
    (h : opensInside spelled rest = false) : strip (spelled ++ rest) = spelled ++ strip rest := by
  induction spelled with
  | nil => rfl
  | cons c cs ih =>
    obtain ⟨hhere, hlater⟩ := Bool.or_eq_false_iff.mp h
    rw [List.cons_append] at hhere ⊢
    rw [strip_cons (by simpa using hhere), ih hlater, List.cons_append]

end Comment

namespace Lexer

/-! ## Classes of characters -/

/-- The token of a word is a reserved word or a name. -/
theorem isWord_wordToken (word : List Char) : (wordToken word).isWord = true := by
  unfold wordToken
  split <;> rfl

/-- The token of a word is no number. -/
theorem isInteger_wordToken (word : List Char) : (wordToken word).isInteger = false := by
  unfold wordToken
  split <;> rfl

/-- Names may hold digits. -/
theorem isNameChar_of_isDigit {c : Char} (h : c.isDigit = true) : isNameChar c = true := by
  simp [isNameChar, Char.isAlphanum, h]

/-- Names may hold letters. -/
theorem isNameChar_of_isAlpha {c : Char} (h : c.isAlpha = true) : isNameChar c = true := by
  simp [isNameChar, Char.isAlphanum, h]

/-- A token is a number spelled with digits, a word spelled with the characters of names, or it
begins with none of them. -/
theorem SpelledAs.number_or_word {found : Token} {c : Char} {cs : List Char}
    (h : SpelledAs found (c :: cs)) :
    (found.isInteger = true ∧ ∀ d ∈ c :: cs, d.isDigit = true) ∨
    (found.isInteger = false ∧ found.isWord = true ∧ c.isAlpha = true ∧
      ∀ d ∈ cs, isNameChar d = true) ∨
    (found.isInteger = false ∧ found.isWord = false ∧ isNameChar c = false) := by
  generalize hspelled : c :: cs = spelled at h
  cases h with
  | integer hc hcs =>
    obtain ⟨rfl, rfl⟩ := List.cons.inj hspelled
    exact .inl ⟨rfl, List.forall_mem_cons.mpr ⟨hc, hcs⟩⟩
  | word hc hcs =>
    obtain ⟨rfl, rfl⟩ := List.cons.inj hspelled
    exact .inr (.inl ⟨isInteger_wordToken _, isWord_wordToken _, hc, hcs⟩)
  | text | notEqual =>
    obtain ⟨rfl, -⟩ := List.cons.inj hspelled
    exact .inr (.inr ⟨rfl, rfl, rfl⟩)
  | symbol hsign =>
    obtain ⟨rfl, -⟩ := List.cons.inj hspelled
    refine .inr (.inr ⟨rfl, rfl, ?_⟩)
    unfold Symbol.ofChar? at hsign
    split at hsign <;> cases hsign <;> rfl

/-- The characters of the class `p` are what the tokens of the class `q` are spelled with, and no
other token begins with one of them. -/
structure SpellsWith (p : Char → Bool) (q : Token → Bool) : Prop where
  blank : ∀ {d : Char}, isBlank d = true → p d = false
  first : ∀ {found : Token} {c : Char} {cs : List Char}, SpelledAs found (c :: cs) → p c = q found
  all : ∀ {found : Token} {c : Char} {cs : List Char}, SpelledAs found (c :: cs) →
    q found = true → ∀ d ∈ c :: cs, p d = true

/-- A class without the five blanks holds no blank. -/
theorem eq_false_of_isBlank {p : Char → Bool} {c : Char}
    (hp : [' ', '\t', '\r', '\n', '\x0c'].any p = false) (h : isBlank c = true) :
    p c = false := by
  rw [Bool.eq_false_iff]
  intro hc
  rw [not_isBlank hp hc] at h
  cases h

/-- Numbers are spelled with digits. -/
theorem spellsWith_digits : SpellsWith Char.isDigit Token.isInteger where
  blank := eq_false_of_isBlank rfl
  first := by
    intro found c cs h
    rcases h.number_or_word with ⟨hq, hall⟩ | ⟨hq, -, hc, -⟩ | ⟨hq, -, hc⟩
    · rw [hq, hall c List.mem_cons_self]
    · rw [hq, not_isDigit_of_isAlpha hc]
    · rw [hq, Bool.eq_false_iff]
      intro hdigit
      rw [isNameChar_of_isDigit hdigit] at hc
      cases hc
  all := by
    intro found c cs h hq
    rcases h.number_or_word with ⟨-, hall⟩ | ⟨hnot, -⟩ | ⟨hnot, -⟩
    · exact hall
    · simp [hnot] at hq
    · simp [hnot] at hq

/-- Words and numbers are spelled with the characters of names, and no other tokens begin with
these. -/
theorem spellsWith_nameChars : SpellsWith isNameChar fun t => t.isInteger || t.isWord where
  blank := eq_false_of_isBlank rfl
  first := by
    intro found c cs h
    rcases h.number_or_word with ⟨hq, hall⟩ | ⟨-, hq, hc, -⟩ | ⟨hnumber, hword, hc⟩
    · simp [hq, isNameChar_of_isDigit (hall c List.mem_cons_self)]
    · simp [hq, isNameChar_of_isAlpha hc]
    · simp [hnumber, hword, hc]
  all := by
    intro found c cs h hq
    rcases h.number_or_word with ⟨-, hall⟩ | ⟨-, -, hc, hcs⟩ | ⟨hnumber, hword, -⟩
    · exact fun d hd => isNameChar_of_isDigit (hall d hd)
    · exact List.forall_mem_cons.mpr ⟨isNameChar_of_isAlpha hc, hcs⟩
    · simp [hnumber, hword] at hq

/-! ## What stripping keeps of the parts -/

namespace Part

/-- What is left of a part when comments are removed from gaps and from nowhere else. -/
def kept : Part → List Char
  | .gap passed => Comment.strip passed
  | .token _ spelled => spelled

/-- What is left of some parts. -/
def keptTexts (ps : List Part) : List Char :=
  ps.flatMap kept

@[simp] theorem keptTexts_nil : keptTexts [] = [] := rfl

@[simp] theorem keptTexts_cons (p : Part) (ps : List Part) :
    keptTexts (p :: ps) = p.kept ++ keptTexts ps :=
  List.flatMap_cons

/-- No comment opens inside the spelling of a token. -/
def isSealed : List Part → Bool
  | [] => true
  | .gap _ :: ps => isSealed ps
  | .token _ spelled :: ps => !Comment.opensInside spelled (texts ps) && isSealed ps

/-- The token with which the parts begin, if nothing is left of what stands in front of it. -/
def next? : List Part → Option Token
  | [] => none
  | .gap passed :: ps => if Comment.strip passed = [] then next? ps else none
  | .token found _ :: _ => some found

/-- Whether a token is continued by what is left of the parts behind it: a word by a word or a
number, a number by a number, and a slash by what makes a comment of it. -/
def runsTogether (found : Token) (ps : List Part) : Bool :=
  match found with
  | .keyword _ | .name _ => (next? ps).any fun t => t.isInteger || t.isWord
  | .integer _ => (next? ps).any Token.isInteger
  | .symbol .slash => (Comment.split? ('/' :: keptTexts ps)).isSome
  | _ => false

/-- A word is continued by a word or a number. -/
theorem runsTogether_wordToken (word : List Char) (ps : List Part) :
    runsTogether (wordToken word) ps = (next? ps).any fun t => t.isInteger || t.isWord := by
  unfold wordToken
  split <;> rfl

/-- No token is continued by what is left of the parts behind it. -/
def isApart : List Part → Bool
  | [] => true
  | .gap _ :: ps => isApart ps
  | .token found _ :: ps => !runsTogether found ps && isApart ps

/-- The part is as the lexer makes them: of a gap only blanks are left, and stripping it has no
effect on what follows; a token is spelled as it should be. -/
def Proper : Part → Prop
  | .gap passed => (∀ d ∈ Comment.strip passed, isBlank d = true) ∧
      ∀ rest, Comment.strip (passed ++ rest) = Comment.strip passed ++ Comment.strip rest
  | .token found spelled => SpelledAs found spelled

end Part

/-- A gap that the lexer skips is one of blanks and comments, as stripping expects it. -/
theorem proper_of_skip {c : Char} {cs passed rest : List Char}
    (h : scan c cs = .skip passed rest) : (Part.gap passed).Proper := by
  rcases scan_skip_cases h with ⟨hblank, rfl, rfl⟩ | ⟨body, inner, rfl, rfl, hclose, rfl⟩
  · have hstrip (r : List Char) : Comment.strip (c :: r) = c :: Comment.strip r := by
      refine Comment.strip_cons (Comment.split?_of_ne ?_ r)
      exact ne_of_class (p := isBlank) rfl hblank
    have hself : Comment.strip [c] = [c] := by rw [hstrip, Comment.strip_nil]
    rw [Part.Proper, hself]
    exact ⟨by simpa using hblank, hstrip⟩
  · have hstrip := Comment.strip_comment_append hclose
    have hself : Comment.strip ('/' :: '*' :: (body ++ ['*', '/'])) = body.filter (· = '\n') := by
      simpa [Comment.strip_nil] using hstrip []
    rw [Part.Proper, hself]
    refine ⟨fun d hd => ?_, hstrip⟩
    have hnewline : d = '\n' := by simpa using (List.mem_filter.mp hd).2
    rw [hnewline]
    rfl

/-- All parts into which the lexer divides a text are proper. -/
theorem Divides.proper {text : List Char} {ps : List Part} (h : Divides text ps) :
    ∀ p ∈ ps, p.Proper := by
  induction h with
  | nil => exact nofun
  | gap hscan _ ih => exact List.forall_mem_cons.mpr ⟨proper_of_skip hscan, ih⟩
  | token hscan _ ih =>
    obtain ⟨tail, -, -, hspelled, -⟩ := scan_token hscan
    exact List.forall_mem_cons.mpr ⟨hspelled, ih⟩

/-- If no comment opens inside a token, stripping removes what the lexer skips. -/
theorem strip_eq_keptTexts {text : List Char} {ps : List Part} (h : Divides text ps)
    (hsealed : Part.isSealed ps = true) : Comment.strip text = Part.keptTexts ps := by
  induction h with
  | nil => exact Comment.strip_nil
  | gap hscan _ ih =>
    have hstrip := (proper_of_skip hscan).2
    obtain ⟨tail, rfl, rfl, -⟩ := scan_skip hscan
    rw [← List.cons_append, hstrip, ih hsealed, Part.keptTexts_cons, Part.kept]
  | token hscan hrest ih =>
    obtain ⟨hinside, hlater⟩ := Bool.and_eq_true_iff.mp hsealed
    obtain ⟨tail, rfl, rfl, -⟩ := scan_token hscan
    rw [Bool.not_eq_true', hrest.texts_eq] at hinside
    rw [← List.cons_append, Comment.strip_append_of_not_opensInside hinside, ih hlater,
      Part.keptTexts_cons, Part.kept]

/-! ## Tokens that stay apart -/

/-- The slash is the only character that is read as one. -/
theorem eq_slash_of_ofChar? {c : Char} (h : Symbol.ofChar? c = some .slash) : c = '/' := by
  unfold Symbol.ofChar? at h
  split at h <;> cases h
  rfl

/-- What is left of parts begins with a character of a class exactly if they begin with a token that
is spelled with it. -/
theorem head?_keptTexts_iff {p : Char → Bool} {q : Token → Bool} (hclass : SpellsWith p q)
    {ps : List Part} (hproper : ∀ x ∈ ps, x.Proper) :
    (∀ d ∈ (Part.keptTexts ps).head?, p d = false) ↔ (Part.next? ps).any q = false := by
  induction ps with
  | nil => simp [Part.next?]
  | cons x ps ih =>
    obtain ⟨hx, hps⟩ := List.forall_mem_cons.mp hproper
    cases x with
    | gap passed =>
      rw [Part.keptTexts_cons, Part.kept, Part.next?]
      cases hkept : Comment.strip passed with
      | nil => simpa using ih hps
      | cons d ds => simpa using hclass.blank (hx.1 d (by simp [hkept]))
    | token found spelled =>
      cases spelled with
      | nil => cases hx
      | cons c cs => simp [Part.kept, Part.next?, hclass.first hx]

/-- A token is detached from what is left of the parts behind it exactly if it does not run together
with them. -/
theorem detached_keptTexts_iff {found : Token} {c : Char} {cs : List Char} {ps : List Part}
    (hspelled : SpelledAs found (c :: cs)) (hproper : ∀ x ∈ ps, x.Proper) :
    Detached c (Part.keptTexts ps) ↔ Part.runsTogether found ps = false := by
  generalize hc : c :: cs = spelled at hspelled
  cases hspelled with
  | integer hdigit =>
    obtain ⟨rfl, rfl⟩ := List.cons.inj hc
    refine Iff.trans ?_ (head?_keptTexts_iff spellsWith_digits hproper)
    refine ⟨fun h => h.digits hdigit, fun h => ⟨fun _ => h, fun halpha => ?_, ?_⟩⟩
    · rw [not_isDigit_of_isAlpha halpha] at hdigit
      cases hdigit
    · exact Comment.split?_of_ne (ne_of_class (p := Char.isDigit) rfl hdigit) _
  | word halpha =>
    obtain ⟨rfl, rfl⟩ := List.cons.inj hc
    rw [Part.runsTogether_wordToken]
    refine Iff.trans ?_ (head?_keptTexts_iff spellsWith_nameChars hproper)
    refine ⟨fun h => h.word halpha, fun h => ⟨fun hdigit => ?_, fun _ => h, ?_⟩⟩
    · rw [not_isDigit_of_isAlpha halpha] at hdigit
      cases hdigit
    · exact Comment.split?_of_ne (ne_of_class (p := Char.isAlpha) rfl halpha) _
  | text =>
    obtain ⟨rfl, rfl⟩ := List.cons.inj hc
    exact ⟨fun _ => rfl, fun _ => ⟨nofun, nofun, rfl⟩⟩
  | @symbol _ sign hsign =>
    obtain ⟨rfl, rfl⟩ := List.cons.inj hc
    have hclasses : c.isDigit = false ∧ c.isAlpha = false := by
      unfold Symbol.ofChar? at hsign
      split at hsign <;> cases hsign <;> exact ⟨rfl, rfl⟩
    have hcomment : Detached c (Part.keptTexts ps) ↔ Comment.split? (c :: Part.keptTexts ps) = none :=
      ⟨fun h => h.comment, fun h => ⟨by simp [hclasses.1], by simp [hclasses.2], h⟩⟩
    rw [hcomment]
    -- among the symbols only the slash can begin a comment
    by_cases hslash : sign = .slash
    · subst hslash
      obtain rfl := eq_slash_of_ofChar? hsign
      exact Option.isNone_iff_eq_none.symm.trans Option.isSome_eq_false_iff.symm
    · have hruns : Part.runsTogether (.symbol sign) ps = false := by
        unfold Part.runsTogether
        split <;> simp_all
      have hne : c ≠ '/' := by
        rintro rfl
        exact hslash (Option.some.inj hsign).symm
      simp [hruns, Comment.split?_of_ne hne]
  | notEqual =>
    obtain ⟨rfl, rfl⟩ := List.cons.inj hc
    exact ⟨fun _ => rfl, fun _ => ⟨nofun, nofun, rfl⟩⟩

/-- Blanks put in front of a text add no token. -/
theorem divides_blanks {blanks rest : List Char} {ps : List Part}
    (hblanks : ∀ d ∈ blanks, isBlank d = true) (h : Divides rest ps) :
    ∃ qs, Divides (blanks ++ rest) qs ∧ Part.tokens qs = Part.tokens ps := by
  induction blanks with
  | nil => exact ⟨ps, h, rfl⟩
  | cons d blanks ih =>
    obtain ⟨hd, hblanks⟩ := List.forall_mem_cons.mp hblanks
    obtain ⟨qs, hqs, htokens⟩ := ih hblanks
    exact ⟨.gap [d] :: qs, .gap (if_pos hd) hqs, htokens⟩

/-- Blanks taken from the front of a text take away no token. -/
theorem Divides.of_blanks {blanks rest : List Char} {ps : List Part}
    (hblanks : ∀ d ∈ blanks, isBlank d = true) (h : Divides (blanks ++ rest) ps) :
    ∃ qs, Divides rest qs ∧ Part.tokens qs = Part.tokens ps := by
  induction blanks generalizing ps with
  | nil => exact ⟨ps, h, rfl⟩
  | cons d blanks ih =>
    obtain ⟨hd, hblanks⟩ := List.forall_mem_cons.mp hblanks
    obtain ⟨qs, rfl, hqs⟩ := Divides.of_skip h (if_pos hd)
    obtain ⟨rs, hrs, htokens⟩ := ih hblanks hqs
    exact ⟨rs, hrs, htokens⟩

/-- Tokens that stay apart are read from what is left of the parts. -/
theorem divides_keptTexts {ps : List Part} (hproper : ∀ p ∈ ps, p.Proper)
    (hapart : Part.isApart ps = true) :
    ∃ qs, Divides (Part.keptTexts ps) qs ∧ Part.tokens qs = Part.tokens ps := by
  induction ps with
  | nil => exact ⟨[], .nil, rfl⟩
  | cons p ps ih =>
    obtain ⟨hp, hps⟩ := List.forall_mem_cons.mp hproper
    cases p with
    | gap passed =>
      obtain ⟨qs, hqs, htokens⟩ := ih hps hapart
      obtain ⟨rs, hrs, htokens'⟩ := divides_blanks hp.1 hqs
      exact ⟨rs, hrs, htokens'.trans htokens⟩
    | token found spelled =>
      obtain ⟨hruns, hapart⟩ := Bool.and_eq_true_iff.mp hapart
      obtain ⟨qs, hqs, htokens⟩ := ih hps hapart
      cases spelled with
      | nil => cases hp
      | cons c cs =>
        have hdetached := (detached_keptTexts_iff hp hps).mpr (by simpa using hruns)
        refine ⟨.token found (c :: cs) :: qs, .token (scan_of_spelledAs hp hdetached) hqs, ?_⟩
        rw [Part.tokens_token, htokens, Part.tokens_token]

end Lexer

end Duet
