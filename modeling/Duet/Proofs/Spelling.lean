import Duet.Token.Lexer

/-!
# Tokens and their spellings

The lexer reads back what a token spells. `wellSpelled_of_lex` says which tokens a source can
have: a name is a word that is not reserved, and a text holds no quote. `Lexes text ts` says that
a text has the tokens `ts`, wherever in a source it stands, and `Lexes.spelling` that a
well-spelled token may be put in front of a text that begins with a blank or a closing
parenthesis, or is empty.
-/

namespace Duet

/-- The token has a spelling: a text holds no quote, and a name is a word that is not reserved. -/
def Token.WellSpelled : Token → Prop
  | .keyword _ | .symbol _ | .integer _ => True
  | .text value => ∀ c ∈ value.toList, Lexer.isTextChar c = true
  | .name x =>
    ∃ c cs, x.toList = c :: cs ∧ c.isAlpha = true ∧ (∀ d ∈ cs, Lexer.isNameChar d = true) ∧
      Keyword.ofSpelling? x = none

/-! ## Decimal digits -/

/-- A number is written with digits only. -/
theorem isDigit_of_mem_toString {n : Nat} {d : Char} (h : d ∈ (toString n).toList) :
    d.isDigit = true := by
  rw [Nat.toString_eq_repr, Nat.toList_repr] at h
  exact Nat.isDigit_of_mem_toDigits (by decide) (by decide) h

/-- A number begins with a digit. -/
theorem exists_digit_cons (n : Nat) :
    ∃ c cs, (toString n).toList = c :: cs ∧ c.isDigit = true := by
  have hne : (toString n).toList ≠ [] := by
    rw [Nat.toString_eq_repr, Nat.toList_repr]
    exact Nat.toDigits_ne_nil
  obtain ⟨c, cs, heq⟩ := List.exists_cons_of_ne_nil hne
  exact ⟨c, cs, heq, isDigit_of_mem_toString (heq ▸ List.mem_cons_self)⟩

namespace Lexer

/-- The digits of a number have that number as their value. -/
theorem decimalValue_toString (n : Nat) : decimalValue (toString n).toList = n := by
  rw [Nat.toString_eq_repr, Nat.toList_repr]
  exact Nat.ofDigitChars_ten_toDigits

/-- Numbers with the same digits are the same. -/
theorem eq_of_toString_eq {m n : Nat} (h : toString m = toString n) : m = n := by
  rw [← decimalValue_toString m, h, decimalValue_toString]

/-! ## The tokens of a source are well spelled -/

/-- The token of a word can be spelled. -/
theorem wellSpelled_wordToken {c : Char} {cs : List Char} (hc : c.isAlpha = true)
    (hcs : ∀ d ∈ cs, isNameChar d = true) : (wordToken (c :: cs)).WellSpelled := by
  unfold wordToken
  split
  · trivial
  · next h => exact ⟨c, cs, String.toList_ofList, hc, hcs, h⟩

/-- The token of a symbol can be spelled. -/
theorem wellSpelled_scanSymbol {c : Char} {cs spelled rest : List Char} {found : Token}
    (h : scanSymbol c cs = .token found spelled rest) : found.WellSpelled := by
  unfold scanSymbol at h
  split at h
  · cases h
    trivial
  · split at h
    · cases h
      trivial
    · cases h

/-- Every token that the lexer finds can be spelled. -/
theorem wellSpelled_of_scan {c : Char} {cs spelled rest : List Char} {found : Token}
    (h : scan c cs = .token found spelled rest) : found.WellSpelled := by
  have htake (p : Char → Bool) : ∀ d ∈ cs.takeWhile p, p d = true :=
    List.all_eq_true.mp List.all_takeWhile
  unfold scan at h
  split at h
  · cases h
  split at h
  · cases h
    trivial
  split at h
  · next halpha =>
    cases h
    exact wellSpelled_wordToken halpha (htake isNameChar)
  split at h
  · split at h
    · cases h
      intro d hd
      rw [String.toList_ofList] at hd
      exact htake isTextChar d hd
    · cases h
  split at h
  · cases h
  · exact wellSpelled_scanSymbol h

/-- Every token of a source can be spelled. -/
theorem wellSpelled_of_lexFrom {offset : Nat} {text : List Char} {ls : List Lexeme}
    (h : lexFrom offset text = .ok ls) : ∀ l ∈ ls, l.token.WellSpelled := by
  fun_induction lexFrom offset text generalizing ls with
  | case1 offset =>
    cases h
    simp
  | case2 offset c cs passed rest hscan ih => exact ih h
  | case3 offset c cs found spelled rest hscan stop lexemes hrest =>
    rename_i ih
    cases h
    intro l hl
    rcases List.mem_cons.mp hl with rfl | hl
    · exact wellSpelled_of_scan hscan
    · exact ih hrest l hl
  | case4 | case5 => cases h

/-! ## The tokens of a text -/

/-- The text has the tokens `ts`, wherever it stands. -/
def Lexes (text : List Char) (ts : List Token) : Prop :=
  ∀ offset, ∃ ls, lexFrom offset text = .ok ls ∧ ls.map (·.token) = ts

/-- The empty text has no tokens. -/
theorem Lexes.nil : Lexes [] [] := by
  intro offset
  exact ⟨[], by rw [lexFrom], rfl⟩

/-- A text has the tokens of what is behind a blank or a comment at its front. -/
theorem Lexes.of_skip {c : Char} {cs passed rest : List Char} {ts : List Token}
    (hscan : scan c cs = .skip passed rest) (h : Lexes rest ts) : Lexes (c :: cs) ts := by
  intro offset
  obtain ⟨ls, hls, hts⟩ := h (offset + byteLength passed)
  refine ⟨ls, ?_, hts⟩
  rw [lexFrom]
  split <;> simp_all

/-- A text has the token at its front and the tokens of what is behind it. -/
theorem Lexes.of_token {c : Char} {cs spelled rest : List Char} {found : Token} {ts : List Token}
    (hscan : scan c cs = .token found spelled rest) (h : Lexes rest ts) :
    Lexes (c :: cs) (found :: ts) := by
  intro offset
  obtain ⟨ls, hls, rfl⟩ := h (offset + byteLength spelled)
  refine ⟨⟨found, ⟨offset, offset + byteLength spelled⟩⟩ :: ls, ?_, rfl⟩
  rw [lexFrom]
  split <;> simp_all

/-- A space in front adds no token. -/
theorem Lexes.blank {cs : List Char} {ts : List Token} (h : Lexes cs ts) : Lexes (' ' :: cs) ts :=
  .of_skip rfl h

/-! ## Spellings are read back -/

/-- The text is empty or begins with a blank or a closing parenthesis. -/
def Breaks (rest : List Char) : Prop :=
  ∀ c ∈ rest.head?, c = ' ' ∨ c = ')'

/-- The end of a text is a break. -/
theorem Breaks.nil : Breaks [] := nofun

/-- A space is a break. -/
theorem Breaks.blank (cs : List Char) : Breaks (' ' :: cs) := by simp [Breaks]

/-- A closing parenthesis is a break. -/
theorem Breaks.close (cs : List Char) : Breaks (')' :: cs) := by simp [Breaks]

/-- A class of characters without blank and closing parenthesis does not go on behind a break. -/
theorem Breaks.head?_eq_false {rest : List Char} (hrest : Breaks rest) {p : Char → Bool}
    (hblank : p ' ' = false) (hclose : p ')' = false) : ∀ d ∈ rest.head?, p d = false := by
  intro d hd
  rcases hrest d hd with rfl | rfl
  · exact hblank
  · exact hclose

/-- What is taken while `p` holds ends before a character for which `p` fails. -/
theorem takeWhile_append_of_head? {p : Char → Bool} {cs rest : List Char}
    (hcs : ∀ d ∈ cs, p d = true) (hrest : ∀ d ∈ rest.head?, p d = false) :
    (cs ++ rest).takeWhile p = cs ∧ (cs ++ rest).dropWhile p = rest := by
  rw [List.takeWhile_append_of_pos hcs, List.dropWhile_append_of_pos hcs]
  cases rest with
  | nil => simp
  | cons d rest => simp [hrest d rfl]

/-- A class that holds no blank. -/
theorem not_isBlank {p : Char → Bool} {c : Char}
    (hp : [' ', '\t', '\r', '\n', '\x0c'].any p = false) (h : p c = true) : isBlank c = false := by
  rw [Bool.eq_false_iff]
  intro hblank
  have hmem : c ∈ [' ', '\t', '\r', '\n', '\x0c'] := by
    simpa [isBlank, or_assoc] using hblank
  exact absurd (List.any_eq_true.mpr ⟨c, hmem, h⟩) (by simp [hp])

/-- A letter is no digit. -/
theorem not_isDigit_of_isAlpha {c : Char} (h : c.isAlpha = true) : c.isDigit = false := by
  rw [Bool.eq_false_iff]
  intro hdigit
  have hle : c.val ≤ 57 := of_decide_eq_true (Bool.and_eq_true_iff.mp hdigit).2
  have hge : 65 ≤ c.val ∨ 97 ≤ c.val := by
    rcases Bool.or_eq_true_iff.mp h with hupper | hlower
    · exact .inl (of_decide_eq_true hupper).1
    · exact .inr (of_decide_eq_true (Bool.and_eq_true_iff.mp hlower).1)
  have hle : c.val.toNat ≤ 57 := UInt32.le_iff_toNat_le.mp hle
  rcases hge with hge | hge
  · have hge : 65 ≤ c.val.toNat := UInt32.le_iff_toNat_le.mp hge
    omega
  · have hge : 97 ≤ c.val.toNat := UInt32.le_iff_toNat_le.mp hge
    omega

/-- At a digit, all digits that follow are taken for one integer. -/
theorem scan_of_isDigit {c : Char} (h : c.isDigit = true) (cs : List Char) :
    scan c cs = .token (.integer (decimalValue (c :: cs.takeWhile Char.isDigit)))
      (c :: cs.takeWhile Char.isDigit) (cs.dropWhile Char.isDigit) := by
  simp [scan, not_isBlank (p := Char.isDigit) rfl h, h]

/-- At a letter, all characters of a name that follow are taken for one word. -/
theorem scan_of_isAlpha {c : Char} (h : c.isAlpha = true) (cs : List Char) :
    scan c cs = .token (wordToken (c :: cs.takeWhile isNameChar))
      (c :: cs.takeWhile isNameChar) (cs.dropWhile isNameChar) := by
  simp [scan, not_isBlank (p := Char.isAlpha) rfl h, not_isDigit_of_isAlpha h, h]

/-- A run of digits is read as one integer where no digit follows it. -/
theorem scan_digits {c : Char} {cs rest : List Char} (hc : c.isDigit = true)
    (hcs : ∀ d ∈ cs, d.isDigit = true) (hrest : ∀ d ∈ rest.head?, d.isDigit = false) :
    scan c (cs ++ rest) = .token (.integer (decimalValue (c :: cs))) (c :: cs) rest := by
  obtain ⟨htake, hdrop⟩ := takeWhile_append_of_head? hcs hrest
  rw [scan_of_isDigit hc, htake, hdrop]

/-- A word is read as one where no character of a name follows it. -/
theorem scan_word {c : Char} {cs rest : List Char} (hc : c.isAlpha = true)
    (hcs : ∀ d ∈ cs, isNameChar d = true) (hrest : ∀ d ∈ rest.head?, isNameChar d = false) :
    scan c (cs ++ rest) = .token (wordToken (c :: cs)) (c :: cs) rest := by
  obtain ⟨htake, hdrop⟩ := takeWhile_append_of_head? hcs hrest
  rw [scan_of_isAlpha hc, htake, hdrop]

/-- A text ends at the first quote behind its opening one. -/
theorem scan_text {cs : List Char} (hcs : ∀ d ∈ cs, isTextChar d = true) (rest : List Char) :
    scan '"' (cs ++ '"' :: rest) =
      .token (.text (String.ofList cs)) ('"' :: cs ++ ['"']) rest := by
  have hquote : ∀ d ∈ ('"' :: rest).head?, isTextChar d = false := by
    rintro _ ⟨⟩
    rfl
  obtain ⟨htake, hdrop⟩ := takeWhile_append_of_head? hcs hquote
  simp [scan, isBlank, htake, hdrop]

/-- A minus sign is a token of its own, whatever follows. -/
theorem Lexes.minus {cs : List Char} {ts : List Token} (h : Lexes cs ts) :
    Lexes ('-' :: cs) (.symbol .minus :: ts) :=
  .of_token rfl h

/-- An opening parenthesis is a token of its own, whatever follows. -/
theorem Lexes.openParen {cs : List Char} {ts : List Token} (h : Lexes cs ts) :
    Lexes ('(' :: cs) (.symbol .openParen :: ts) :=
  .of_token rfl h

/-- A reserved word is spelled as a word, which is read as this reserved word. -/
theorem exists_spelling_keyword (k : Keyword) :
    ∃ c cs, k.spelling.toList = c :: cs ∧ c.isAlpha = true ∧ cs.all isNameChar = true ∧
      wordToken (c :: cs) = .keyword k := by
  cases k <;> exact ⟨_, _, rfl, rfl, rfl, rfl⟩

/-- A well-spelled token is read back at a break. -/
theorem Lexes.spelling {t : Token} {rest : List Char} {ts : List Token} (ht : t.WellSpelled)
    (hrest : Breaks rest) (h : Lexes rest ts) : Lexes (t.spelling.toList ++ rest) (t :: ts) := by
  cases t with
  | keyword k =>
    obtain ⟨c, cs, hspelling, hc, hcs, hword⟩ := exists_spelling_keyword k
    rw [Token.spelling, hspelling, ← hword]
    exact .of_token (scan_word hc (List.all_eq_true.mp hcs) (hrest.head?_eq_false rfl rfl)) h
  | symbol sign =>
    cases sign with
    | slash =>
      -- At a break the slash does not open a comment.
      have hscan : scan '/' rest = .token (.symbol .slash) ['/'] rest := by
        cases rest with
        | nil => rfl
        | cons c rest => rcases hrest c rfl with rfl | rfl <;> rfl
      exact .of_token hscan h
    | _ => exact .of_token rfl h
  | integer value =>
    obtain ⟨c, cs, hcs, hdigit⟩ := exists_digit_cons value
    have hdigits : ∀ d ∈ cs, d.isDigit = true := fun d hd =>
      isDigit_of_mem_toString (hcs ▸ List.mem_cons_of_mem c hd)
    have hvalue : decimalValue (c :: cs) = value := hcs ▸ decimalValue_toString value
    have hscan := scan_digits hdigit hdigits (hrest.head?_eq_false rfl rfl)
    rw [hvalue] at hscan
    rw [Token.spelling, hcs]
    exact .of_token hscan h
  | text value =>
    have hscan := scan_text ht rest
    rw [String.ofList_toList] at hscan
    simpa [Token.spelling] using Lexes.of_token hscan h
  | name x =>
    obtain ⟨c, cs, hx, hc, hcs, hkeyword⟩ := ht
    have hscan := scan_word hc hcs (hrest.head?_eq_false rfl rfl)
    have hword : wordToken (c :: cs) = .name x := by
      rw [← hx, wordToken, String.ofList_toList, hkeyword]
    rw [hword] at hscan
    rw [Token.spelling, hx]
    exact .of_token hscan h

end Lexer

/-- The tokens of a source are well spelled. -/
theorem wellSpelled_of_lex {source : String} {ls : List Lexeme} (h : lex source = .ok ls) :
    ∀ l ∈ ls, l.token.WellSpelled :=
  Lexer.wellSpelled_of_lexFrom h

end Duet
