import Duet.Proofs.Spelling

/-!
# What the lexer takes a text apart into

The lexer takes an accepted text apart into gaps, which are blanks and comments, and spellings of
tokens. `Divides text ps` says that it takes `text` apart into the parts `ps`, and `place` puts the
tokens of parts at their offsets; `lexFrom_eq_ok_iff` says that this is all there is to lexing.

Reading is local. A gap is recognised by its own characters (`scan_skip`). A token is recognised by
its own characters, as `SpelledAs` lists them, and by what must not follow: `Detached` says that a
text does not go on with a digit after digits, with a character of a name after a word, or with what
makes a comment of a slash (`scan_token`, `scan_of_spelledAs`). A text can therefore be cut off
behind each of its parts (`Divides.take`).
-/

namespace Duet

/-! ## Comments -/

namespace Comment

/-- Where a comment closes does not depend on what follows. -/
theorem splitAtClose_append {cs body rest : List Char} (h : splitAtClose cs = some (body, rest))
    (r : List Char) : splitAtClose (body ++ '*' :: '/' :: r) = some (body, r) := by
  fun_induction splitAtClose cs generalizing body with
  | case1 tail =>
    obtain ⟨rfl, -⟩ := Prod.mk.inj (Option.some.inj h)
    rfl
  | case2 c cs hopen inner tail hinner ih =>
    obtain ⟨rfl, rfl⟩ := Prod.mk.inj (Option.some.inj h)
    have hnot (cs' : List Char) (hc : c = '*')
        (htail : inner ++ '*' :: '/' :: r = '/' :: cs') : False := by
      rw [eq_of_splitAtClose hinner] at hopen
      cases inner with
      | nil => simp at htail
      | cons d inner =>
        obtain ⟨rfl, -⟩ := List.cons.inj htail
        exact hopen _ hc rfl
    rw [List.cons_append, splitAtClose]
    · rw [ih hinner]
    · exact hnot
  | case3 => cases h
  | case4 => cases h

/-- What is open stays open if the text is cut off. -/
theorem splitAtClose_eq_none_of_append {cs rest : List Char}
    (h : splitAtClose (cs ++ rest) = none) : splitAtClose cs = none := by
  rw [Option.eq_none_iff_forall_ne_some]
  rintro ⟨body, tail⟩ hclosed
  have hcs := eq_of_splitAtClose hclosed
  have hlonger := splitAtClose_append hclosed (tail ++ rest)
  rw [hcs] at h
  simp only [List.append_assoc, List.cons_append] at h
  rw [h] at hlonger
  cases hlonger

/-- A comment at the front is the same whatever is appended. -/
theorem split?_append {cs body rest : List Char} (h : split? cs = some (body, rest))
    (r : List Char) : split? (cs ++ r) = some (body, rest ++ r) := by
  unfold split? at h
  split at h
  · next inner =>
    rw [eq_of_splitAtClose h]
    simpa [split?] using splitAtClose_append h (rest ++ r)
  · cases h

/-- A comment begins with a slash. -/
theorem split?_of_ne {c : Char} (h : c ≠ '/') (cs : List Char) : split? (c :: cs) = none := by
  unfold split?
  split
  · next heq =>
    obtain ⟨rfl, -⟩ := List.cons.inj heq
    exact absurd rfl h
  · rfl

/-- If no comment begins a text, none begins the front part of it. -/
theorem split?_eq_none_of_append {cs rest : List Char} (h : split? (cs ++ rest) = none) :
    split? cs = none := by
  unfold split?
  split
  · exact splitAtClose_eq_none_of_append h
  · rfl

end Comment

namespace Lexer

/-! ## Reading is local -/

/-- What comes behind the longest beginning with a property does not begin with it. -/
theorem head?_dropWhile {p : Char → Bool} {cs : List Char} :
    ∀ d ∈ (cs.dropWhile p).head?, p d = false := by
  intro d hd
  have hnot := List.head?_dropWhile_not p cs
  rw [Option.mem_def.mp hd] at hnot
  simpa using hnot

/-- A token that begins with `c` is not continued by the text that follows it. -/
structure Detached (c : Char) (rest : List Char) : Prop where
  digits : c.isDigit = true → ∀ d ∈ rest.head?, d.isDigit = false
  word : c.isAlpha = true → ∀ d ∈ rest.head?, isNameChar d = false
  comment : Comment.split? (c :: rest) = none

/-- A token stays detached if what follows is cut off. -/
theorem Detached.of_append {c : Char} {rest more : List Char} (h : Detached c (rest ++ more)) :
    Detached c rest := by
  have hhead (d : Char) (hd : d ∈ rest.head?) : d ∈ (rest ++ more).head? := by
    obtain ⟨tail, rfl⟩ := List.head?_eq_some_iff.mp hd
    exact rfl
  refine ⟨fun hc d hd => h.digits hc d (hhead d hd), fun hc d hd => h.word hc d (hhead d hd), ?_⟩
  exact Comment.split?_eq_none_of_append h.comment

/-- A character of a class is none outside of it. -/
theorem ne_of_class {p : Char → Bool} {a c : Char} (hp : p a = false) (h : p c = true) : c ≠ a := by
  rintro rfl
  rw [hp] at h
  cases h

/-- A character outside a class is none of the characters in it. -/
theorem not_mem_of_class {p : Char → Bool} {a : Char} {cs : List Char} (hp : p a = false)
    (h : ∀ d ∈ cs, p d = true) : a ∉ cs :=
  fun hmem => ne_of_class hp (h a hmem) rfl

/-- A gap is a blank or a comment. -/
theorem scan_skip_cases {c : Char} {cs passed rest : List Char}
    (h : scan c cs = .skip passed rest) :
    (isBlank c = true ∧ passed = [c] ∧ cs = rest) ∨
    ∃ body inner, c = '/' ∧ cs = '*' :: inner ∧
      Comment.splitAtClose inner = some (body, rest) ∧
      passed = '/' :: '*' :: (body ++ ['*', '/']) := by
  unfold scan at h
  split at h
  · next hblank =>
    cases h
    exact .inl ⟨hblank, rfl, rfl⟩
  split at h
  · cases h
  split at h
  · cases h
  split at h
  · split at h <;> cases h
  split at h
  · next hcomment =>
    cases h
    unfold Comment.split? at hcomment
    split at hcomment
    · next inner heq =>
      obtain ⟨rfl, rfl⟩ := List.cons.inj heq
      exact .inr ⟨_, inner, rfl, rfl, hcomment, rfl⟩
    · cases hcomment
  · unfold scanSymbol at h
    split at h
    · cases h
    · split at h <;> cases h

/-- A comment is skipped with both of its ends. -/
theorem scan_comment {cs body rest : List Char}
    (h : Comment.split? ('/' :: cs) = some (body, rest)) :
    scan '/' cs = .skip ('/' :: '*' :: (body ++ ['*', '/'])) rest := by
  simp [scan, isBlank, h]

/-- A gap is recognised by its own characters. -/
theorem scan_skip {c : Char} {cs passed rest : List Char} (h : scan c cs = .skip passed rest) :
    ∃ tail, passed = c :: tail ∧ cs = tail ++ rest ∧
      ∀ r, scan c (tail ++ r) = .skip passed r := by
  rcases scan_skip_cases h with ⟨hblank, rfl, rfl⟩ | ⟨body, inner, rfl, rfl, hclose, rfl⟩
  · exact ⟨[], rfl, rfl, fun r => if_pos hblank⟩
  · refine ⟨'*' :: (body ++ ['*', '/']), rfl, ?_, fun r => ?_⟩
    · simp [Comment.eq_of_splitAtClose hclose]
    · have hsplit : Comment.split? ('/' :: '*' :: (body ++ ['*', '/']) ++ r) = some (body, r) := by
        simpa [Comment.split?] using Comment.splitAtClose_append hclose r
      exact scan_comment hsplit

/-- The spellings that the lexer takes for a token. -/
inductive SpelledAs : Token → List Char → Prop
  | integer {c : Char} {cs : List Char} : c.isDigit = true → (∀ d ∈ cs, d.isDigit = true) →
      SpelledAs (.integer (decimalValue (c :: cs))) (c :: cs)
  | word {c : Char} {cs : List Char} : c.isAlpha = true → (∀ d ∈ cs, isNameChar d = true) →
      SpelledAs (wordToken (c :: cs)) (c :: cs)
  | text {cs : List Char} : (∀ d ∈ cs, isTextChar d = true) →
      SpelledAs (.text (String.ofList cs)) ('"' :: (cs ++ ['"']))
  | symbol {c : Char} {sign : Symbol} : Symbol.ofChar? c = some sign → SpelledAs (.symbol sign) [c]
  | notEqual : SpelledAs (.symbol .notEqual) ['~', '=']

/-- A symbol of one character begins nothing else, a comment aside. -/
theorem scan_symbol {c : Char} {sign : Symbol} {cs : List Char} (h : Symbol.ofChar? c = some sign)
    (hcomment : Comment.split? (c :: cs) = none) :
    scan c cs = .token (.symbol sign) [c] cs := by
  have hclasses : isBlank c = false ∧ c.isDigit = false ∧ c.isAlpha = false ∧ c ≠ '"' := by
    unfold Symbol.ofChar? at h
    split at h <;> cases h <;> decide
  have hsymbol : scanSymbol c cs = .token (.symbol sign) [c] cs := by
    unfold scanSymbol
    split
    · cases h
    · rw [h]
  obtain ⟨hblank, hdigit, halpha, hquote⟩ := hclasses
  simp [scan, hblank, hdigit, halpha, hquote, hcomment, hsymbol]

/-- A spelling of a token is read as that token where it is detached from what follows. -/
theorem scan_of_spelledAs {found : Token} {c : Char} {tail rest : List Char}
    (h : SpelledAs found (c :: tail)) (hrest : Detached c rest) :
    scan c (tail ++ rest) = .token found (c :: tail) rest := by
  generalize hspelled : c :: tail = spelled at h
  cases h with
  | integer hc hcs =>
    obtain ⟨rfl, rfl⟩ := List.cons.inj hspelled
    exact scan_digits hc hcs (hrest.digits hc)
  | word hc hcs =>
    obtain ⟨rfl, rfl⟩ := List.cons.inj hspelled
    exact scan_word hc hcs (hrest.word hc)
  | text hcs =>
    obtain ⟨rfl, rfl⟩ := List.cons.inj hspelled
    simpa using scan_text hcs rest
  | symbol hsign =>
    obtain ⟨rfl, rfl⟩ := List.cons.inj hspelled
    exact scan_symbol hsign hrest.comment
  | notEqual =>
    obtain ⟨rfl, rfl⟩ := List.cons.inj hspelled
    rfl

/-- What is read as a token is a spelling of it and is detached from what follows. -/
theorem scan_token {c : Char} {cs spelled rest : List Char} {found : Token}
    (h : scan c cs = .token found spelled rest) :
    ∃ tail, spelled = c :: tail ∧ cs = tail ++ rest ∧ SpelledAs found spelled ∧
      Detached c rest := by
  have htake (p : Char → Bool) : ∀ d ∈ cs.takeWhile p, p d = true :=
    List.all_eq_true.mp List.all_takeWhile
  unfold scan at h
  split at h
  · cases h
  split at h
  · next hdigit =>
    cases h
    have halpha : c.isAlpha ≠ true := fun halpha => by
      rw [not_isDigit_of_isAlpha halpha] at hdigit
      cases hdigit
    exact ⟨_, rfl, List.takeWhile_append_dropWhile.symm, .integer hdigit (htake _),
      fun _ => head?_dropWhile, fun hc => absurd hc halpha,
      Comment.split?_of_ne (ne_of_class (p := Char.isDigit) rfl hdigit) _⟩
  next hdigit =>
  split at h
  · next halpha =>
    cases h
    exact ⟨_, rfl, List.takeWhile_append_dropWhile.symm, .word halpha (htake _),
      fun hc => absurd hc hdigit, fun _ => head?_dropWhile,
      Comment.split?_of_ne (ne_of_class (p := Char.isAlpha) rfl halpha) _⟩
  next halpha =>
  -- From here on only a comment could continue what is read.
  have hdetached (r : List Char) (hr : Comment.split? (c :: r) = none) : Detached c r :=
    ⟨fun hc => absurd hc hdigit, fun hc => absurd hc halpha, hr⟩
  split at h
  · next hquote =>
    subst hquote
    split at h
    · next close tail hdrop =>
      cases h
      have hclose : close = '"' := by
        have hstop := head?_dropWhile (p := isTextChar) close (by rw [hdrop]; rfl)
        simpa [isTextChar] using hstop
      subst hclose
      refine ⟨cs.takeWhile isTextChar ++ ['"'], rfl, ?_, .text (htake _), hdetached _ rfl⟩
      rw [List.append_assoc, List.singleton_append, ← hdrop, List.takeWhile_append_dropWhile]
    · cases h
  split at h
  · cases h
  next hcomment =>
  unfold scanSymbol at h
  split at h
  · cases h
    exact ⟨['='], rfl, rfl, .notEqual, hdetached _ rfl⟩
  · split at h
    · next sign hsign =>
      cases h
      exact ⟨[], rfl, rfl, .symbol hsign, hdetached _ hcomment⟩
    · cases h

/-! ## Parts -/

/-- A part of a text: a blank or a comment, or the spelling of a token. -/
inductive Part where
  | gap (passed : List Char)
  | token (found : Token) (spelled : List Char)
deriving DecidableEq, Repr

namespace Part

/-- The characters of a part. -/
def text : Part → List Char
  | .gap passed => passed
  | .token _ spelled => spelled

/-- The characters of some parts. -/
def texts (ps : List Part) : List Char :=
  ps.flatMap text

@[simp] theorem texts_nil : texts [] = [] := rfl

@[simp] theorem texts_cons (p : Part) (ps : List Part) : texts (p :: ps) = p.text ++ texts ps :=
  List.flatMap_cons

@[simp] theorem texts_append (ps qs : List Part) : texts (ps ++ qs) = texts ps ++ texts qs :=
  List.flatMap_append

/-- The tokens among some parts. -/
def tokens : List Part → List Token
  | [] => []
  | .gap _ :: ps => tokens ps
  | .token found _ :: ps => found :: tokens ps

@[simp] theorem tokens_nil : tokens [] = [] := rfl

@[simp] theorem tokens_gap (passed : List Char) (ps : List Part) :
    tokens (.gap passed :: ps) = tokens ps := rfl

@[simp] theorem tokens_token (found : Token) (spelled : List Char) (ps : List Part) :
    tokens (.token found spelled :: ps) = found :: tokens ps := rfl

@[simp] theorem tokens_append (ps qs : List Part) : tokens (ps ++ qs) = tokens ps ++ tokens qs := by
  induction ps with
  | nil => rfl
  | cons p ps ih => cases p <;> simp [ih]

end Part

/-- The lexer takes the text apart into the given parts. -/
inductive Divides : List Char → List Part → Prop
  | nil : Divides [] []
  | gap {c : Char} {cs passed rest : List Char} {ps : List Part} :
      scan c cs = .skip passed rest → Divides rest ps → Divides (c :: cs) (.gap passed :: ps)
  | token {c : Char} {cs spelled rest : List Char} {found : Token} {ps : List Part} :
      scan c cs = .token found spelled rest → Divides rest ps →
      Divides (c :: cs) (.token found spelled :: ps)

/-- The parts of a text, up to the first place where it cannot be read. -/
def parts (text : List Char) : List Part :=
  match text with
  | [] => []
  | c :: cs =>
    match _h : scan c cs with
    | .skip passed rest => .gap passed :: parts rest
    | .token found spelled rest => .token found spelled :: parts rest
    | .stuck _ => []
termination_by text.length
decreasing_by
  · exact Nat.lt_succ_of_le (length_le_of_scan_skip _h)
  · exact Nat.lt_succ_of_le (length_le_of_scan_token _h)

/-- There is one way only to take a text apart. -/
theorem Divides.parts_eq {text : List Char} {ps : List Part} (h : Divides text ps) :
    parts text = ps := by
  induction h with
  | nil => rw [parts]
  | gap hscan _ ih | token hscan _ ih =>
    rw [parts]
    split <;> simp_all

/-- The tokens among parts that begin at byte `offset` of a source. -/
def place (offset : Nat) : List Part → List Lexeme
  | [] => []
  | .gap passed :: ps => place (offset + byteLength passed) ps
  | .token found spelled :: ps =>
    ⟨found, ⟨offset, offset + byteLength spelled⟩⟩ :: place (offset + byteLength spelled) ps

/-- The tokens that are placed are those of the parts. -/
theorem map_token_place (offset : Nat) (ps : List Part) :
    (place offset ps).map (·.token) = Part.tokens ps := by
  induction ps generalizing offset with
  | nil => rfl
  | cons p ps ih => cases p <;> simp [place, ih]

/-- A text that is taken apart is lexed to the tokens of its parts, each at its place. -/
theorem lexFrom_of_divides {text : List Char} {ps : List Part} (h : Divides text ps)
    (offset : Nat) : lexFrom offset text = .ok (place offset ps) := by
  induction h generalizing offset with
  | nil => rw [lexFrom, place]
  | gap hscan _ ih =>
    rw [lexFrom, place]
    split <;> simp_all
  | token hscan _ ih =>
    rw [lexFrom, place]
    split <;> simp_all

/-- Lexing is taking apart and putting the tokens at their offsets. -/
theorem lexFrom_eq_ok_iff {offset : Nat} {text : List Char} {ls : List Lexeme} :
    lexFrom offset text = .ok ls ↔ ∃ ps, Divides text ps ∧ place offset ps = ls := by
  constructor
  · intro h
    fun_induction lexFrom offset text generalizing ls with
    | case1 offset =>
      cases h
      exact ⟨[], .nil, rfl⟩
    | case2 offset c cs passed rest hscan ih =>
      obtain ⟨ps, hps, rfl⟩ := ih h
      exact ⟨.gap passed :: ps, .gap hscan hps, rfl⟩
    | case3 offset c cs found spelled rest hscan stop lexemes hrest =>
      rename_i ih
      cases h
      obtain ⟨ps, hps, rfl⟩ := ih hrest
      exact ⟨.token found spelled :: ps, .token hscan hps, rfl⟩
    | case4 | case5 => cases h
  · rintro ⟨ps, hps, rfl⟩
    exact lexFrom_of_divides hps offset

/-- The parts make up the text. -/
theorem Divides.texts_eq {text : List Char} {ps : List Part} (h : Divides text ps) :
    Part.texts ps = text := by
  induction h with
  | nil => rfl
  | gap hscan _ ih =>
    obtain ⟨tail, rfl, rfl, -⟩ := scan_skip hscan
    simp [Part.text, ih]
  | token hscan _ ih =>
    obtain ⟨tail, rfl, rfl, -⟩ := scan_token hscan
    simp [Part.text, ih]

/-- A token takes at least one byte. -/
theorem Divides.start_lt_stop {text : List Char} {ps : List Part} (h : Divides text ps)
    (offset : Nat) : ∀ l ∈ place offset ps, l.span.start < l.span.stop := by
  induction h generalizing offset with
  | nil => nofun
  | gap _ _ ih => exact ih _
  | @token c cs spelled rest found ps hscan _ ih =>
    obtain ⟨tail, rfl, -⟩ := scan_token hscan
    have hpos : 0 < byteLength (c :: tail) := Nat.add_pos_left c.utf8Size_pos _
    exact List.forall_mem_cons.mpr ⟨Nat.lt_add_of_pos_right hpos, ih _⟩

/-- Where the lexer skips something, this is the first part. -/
theorem Divides.of_skip {c : Char} {cs passed rest : List Char} {ps : List Part}
    (h : Divides (c :: cs) ps) (hscan : scan c cs = .skip passed rest) :
    ∃ qs, ps = .gap passed :: qs ∧ Divides rest qs := by
  rcases h with _ | ⟨hfound, h⟩ | ⟨hfound, h⟩
  · obtain ⟨rfl, rfl⟩ := Scan.skip.inj (hscan.symm.trans hfound)
    exact ⟨_, rfl, h⟩
  · cases hscan.symm.trans hfound

/-- Where the lexer finds a token, this is the first part. -/
theorem Divides.of_token {c : Char} {cs spelled rest : List Char} {found : Token}
    {ps : List Part} (h : Divides (c :: cs) ps) (hscan : scan c cs = .token found spelled rest) :
    ∃ qs, ps = .token found spelled :: qs ∧ Divides rest qs := by
  rcases h with _ | ⟨hfound, h⟩ | ⟨hfound, h⟩
  · cases hscan.symm.trans hfound
  · obtain ⟨rfl, rfl, rfl⟩ := Scan.token.inj (hscan.symm.trans hfound)
    exact ⟨_, rfl, h⟩

/-- The lexer does the same with what comes after some parts. -/
theorem Divides.drop {text : List Char} {ps qs : List Part} (h : Divides text (ps ++ qs)) :
    Divides (Part.texts qs) qs := by
  induction ps generalizing text with
  | nil => exact h.texts_eq.symm ▸ h
  | cons p ps ih =>
    rcases h with _ | ⟨_, h⟩ | ⟨_, h⟩
    · exact ih h
    · exact ih h

/-- The lexer does the same with a text that is cut off behind some parts. -/
theorem Divides.take {text : List Char} {ps qs : List Part} (h : Divides text (ps ++ qs)) :
    Divides (Part.texts ps) ps := by
  induction ps generalizing text with
  | nil => exact .nil
  | cons p ps ih =>
    rcases h with _ | ⟨hscan, h⟩ | ⟨hscan, h⟩
    · obtain ⟨tail, rfl, rfl, hlocal⟩ := scan_skip hscan
      exact .gap (hlocal _) (ih h)
    · obtain ⟨tail, rfl, rfl, hspelled, hdetached⟩ := scan_token hscan
      have hrest : Part.texts ps ++ Part.texts qs = _ :=
        (Part.texts_append ps qs).symm.trans h.texts_eq
      rw [← hrest] at hdetached
      exact .token (scan_of_spelledAs hspelled hdetached.of_append) (ih h)

end Lexer

end Duet
