import Duet.Proofs.CommentStripping
import Duet.Proofs.InclusionGraph

/-!
# Expanding a source without directives keeps its tokens, or not

A source that includes nothing is expanded to its text without comments. Its tokens are then the
same as before if no comment opens inside a text and no two tokens run together where a comment
between them is removed (`CommentStripping`). This file shows that nothing less will do, and puts
both directions together in `hasTokens_expand`.

* If tokens run together, fewer are left (`isApart_of_divides`). A comment that two tokens form by
  running together could end inside a text and let its characters out; then, however, a quote is
  gone, and with it a text. So quotes are counted first.
* If a comment opens inside a text and no comment of the source has a quote in it, then either a
  quote is removed, and there are fewer texts, or the comment is removed from within one text, and
  texts are shorter in all (`isSealed_of_count_eq`).
-/

namespace Duet

/-! ## Quotes -/

namespace Comment

/-- A comment that is split off stands at the front, up to its `*/`. -/
theorem eq_of_split? {text body rest : List Char} (h : split? text = some (body, rest)) :
    text = '/' :: '*' :: (body ++ '*' :: '/' :: rest) := by
  unfold split? at h
  split at h
  · rw [eq_of_splitAtClose h]
  · cases h

/-- No quote is left of a comment. -/
theorem count_quote_filter (body : List Char) : (body.filter (· = '\n')).count '"' = 0 := by
  rw [List.count_eq_zero]
  intro hmem
  exact absurd (List.mem_filter.mp hmem).2 (by decide)

/-- The ends of a comment are no quotes. -/
theorem count_quote_comment (body rest : List Char) :
    ('/' :: '*' :: (body ++ '*' :: '/' :: rest)).count '"' = body.count '"' + rest.count '"' := by
  simp [List.count_append]

/-- Stripping adds no quote. -/
theorem count_quote_strip_le (text : List Char) : (strip text).count '"' ≤ text.count '"' := by
  fun_induction strip text with
  | case1 text body rest h ih =>
    rw [eq_of_split? h, count_quote_comment, List.count_append, count_quote_filter]
    omega
  | case2 => exact Nat.le_refl _
  | case3 c cs h ih => simpa [List.count_cons] using ih

/-- A comment that is removed without loss of quotes has none. -/
theorem not_mem_of_count_quote_eq {text body rest : List Char}
    (h : split? text = some (body, rest)) (hcount : (strip text).count '"' = text.count '"') :
    '"' ∉ body ∧ (strip rest).count '"' = rest.count '"' := by
  rw [strip_of_split? h, eq_of_split? h, count_quote_comment, List.count_append,
    count_quote_filter] at hcount
  have hle := count_quote_strip_le rest
  rw [← List.count_eq_zero]
  omega

/-- Behind a character that stays, no quote is lost if none is lost in all. -/
theorem count_quote_eq_of_cons {c : Char} {cs : List Char} (h : split? (c :: cs) = none)
    (hcount : (strip (c :: cs)).count '"' = (c :: cs).count '"') :
    (strip cs).count '"' = cs.count '"' := by
  rw [strip_cons h] at hcount
  simpa [List.count_cons] using hcount

end Comment

/-- The number of characters between quotes, if the text begins inside quotes or not. -/
def quotedLength : Bool → List Char → Nat
  | _, [] => 0
  | inside, c :: cs =>
    if c = '"' then quotedLength (!inside) cs else inside.toNat + quotedLength inside cs

/-- Without a quote in them, characters count if they are inside quotes. -/
theorem quotedLength_append {inside : Bool} {front : List Char} (h : '"' ∉ front)
    (back : List Char) :
    quotedLength inside (front ++ back) =
      inside.toNat * front.length + quotedLength inside back := by
  induction front with
  | nil => simp
  | cons c front ih =>
    rw [List.mem_cons, not_or] at h
    rw [List.cons_append, quotedLength, if_neg (Ne.symm h.1), ih h.2, List.length_cons,
      Nat.mul_succ]
    omega

/-- A quote leads inside or outside. -/
theorem quotedLength_quote (inside : Bool) (cs : List Char) :
    quotedLength inside ('"' :: cs) = quotedLength (!inside) cs :=
  if_pos rfl

namespace Comment

/-- What is left of a comment without quotes adds less between quotes than the comment did. -/
theorem quotedLength_of_split? {text body rest : List Char} (h : split? text = some (body, rest))
    (hbody : '"' ∉ body) {inside : Bool}
    (hrest : quotedLength inside (strip rest) ≤ quotedLength inside rest) :
    quotedLength inside (strip text) + inside.toNat * 4 ≤ quotedLength inside text := by
  have hnewlines : '"' ∉ body.filter (· = '\n') := fun hmem => hbody (List.mem_filter.mp hmem).1
  have hcomment : '"' ∉ '/' :: '*' :: (body ++ ['*', '/']) := by simp [hbody]
  have htext : text = '/' :: '*' :: (body ++ ['*', '/']) ++ rest := by simp [eq_of_split? h]
  have hlength := List.length_filter_le (· = '\n') body
  rw [strip_of_split? h, htext, quotedLength_append hnewlines, quotedLength_append hcomment]
  cases inside with
  | false => simpa using hrest
  | true =>
    simp only [Bool.toNat_true, Nat.one_mul, List.length_cons, List.length_append, List.length_nil]
    omega

/-- Stripping without loss of quotes takes no characters into quotes. -/
theorem quotedLength_strip_le {text : List Char}
    (hcount : (strip text).count '"' = text.count '"') (inside : Bool) :
    quotedLength inside (strip text) ≤ quotedLength inside text := by
  fun_induction strip text generalizing inside with
  | case1 text body rest h ih =>
    rw [← strip_of_split? h] at hcount ⊢
    obtain ⟨hbody, hrest⟩ := not_mem_of_count_quote_eq h hcount
    have hle := quotedLength_of_split? h hbody (ih hrest inside)
    omega
  | case2 => exact Nat.le_refl _
  | case3 c cs h ih =>
    rw [← strip_cons h] at hcount
    have hrest := count_quote_eq_of_cons h hcount
    unfold quotedLength
    split
    · exact ih hrest _
    · exact Nat.add_le_add_left (ih hrest _) _

/-- If a comment opens between quotes, less is left between quotes. -/
theorem quotedLength_strip_lt {value rest : List Char} (hvalue : '"' ∉ value)
    (hopens : opensInside (value ++ ['"']) rest = true)
    (hcount : (strip (value ++ '"' :: rest)).count '"' = (value ++ '"' :: rest).count '"') :
    quotedLength true (strip (value ++ '"' :: rest)) <
      quotedLength true (value ++ '"' :: rest) := by
  induction value with
  | nil =>
    rw [List.nil_append, opensInside, opensInside, Bool.or_false, List.singleton_append,
      split?_of_ne (by decide)] at hopens
    cases hopens
  | cons c value ih =>
    rw [List.mem_cons, not_or] at hvalue
    rw [List.cons_append] at hcount ⊢
    cases hsplit : split? (c :: (value ++ '"' :: rest)) with
    | some found =>
      obtain ⟨body, tail⟩ := found
      obtain ⟨hbody, htail⟩ := not_mem_of_count_quote_eq hsplit hcount
      have hlt := quotedLength_of_split? hsplit hbody (quotedLength_strip_le htail true)
      rw [Bool.toNat_true] at hlt
      omega
    | none =>
      -- The comment opens further on.
      have hlater : opensInside (value ++ ['"']) rest = true := by
        rw [List.cons_append, opensInside] at hopens
        simpa [hsplit] using hopens
      have hlt := ih hvalue.2 hlater (count_quote_eq_of_cons hsplit hcount)
      rw [strip_cons hsplit, quotedLength, quotedLength, if_neg (Ne.symm hvalue.1),
        if_neg (Ne.symm hvalue.1)]
      omega

/-- No comment opens inside a spelling without a slash. -/
theorem opensInside_of_not_mem {spelled : List Char} (h : '/' ∉ spelled) (rest : List Char) :
    opensInside spelled rest = false := by
  induction spelled with
  | nil => rfl
  | cons c cs ih =>
    rw [List.mem_cons, not_or] at h
    rw [opensInside, List.cons_append, split?_of_ne (Ne.symm h.1), ih h.2]
    rfl

end Comment

namespace Token

/-- The number of characters of a text. -/
def textLength : Token → Nat
  | .text value => value.toList.length
  | _ => 0

/-- The number of characters of all texts among some tokens. -/
def totalTextLength : List Token → Nat
  | [] => 0
  | t :: ts => t.textLength + totalTextLength ts

end Token

namespace Lexer

/-- The token of a word is no text. -/
theorem isText_wordToken (word : List Char) : (wordToken word).isText = false := by
  unfold wordToken
  split <;> rfl

/-- Only texts have characters that count. -/
theorem textLength_of_not_isText {t : Token} (h : t.isText = false) : t.textLength = 0 := by
  cases t with
  | text => cases h
  | _ => rfl

/-- Only texts are spelled with quotes, and these have one at each end. -/
theorem SpelledAs.text_or_unquoted {found : Token} {spelled : List Char}
    (h : SpelledAs found spelled) :
    (∃ cs, found = .text (String.ofList cs) ∧ spelled = '"' :: (cs ++ ['"']) ∧ '"' ∉ cs) ∨
    (found.isText = false ∧ '"' ∉ spelled) := by
  cases h with
  | integer hc hcs =>
    exact .inr ⟨rfl, not_mem_of_class (p := Char.isDigit) rfl
      (List.forall_mem_cons.mpr ⟨hc, hcs⟩)⟩
  | word hc hcs =>
    exact .inr ⟨isText_wordToken _, not_mem_of_class (p := isNameChar) rfl
      (List.forall_mem_cons.mpr ⟨isNameChar_of_isAlpha hc, hcs⟩)⟩
  | text hcs => exact .inl ⟨_, rfl, rfl, not_mem_of_class (p := isTextChar) rfl hcs⟩
  | symbol hsign =>
    refine .inr ⟨rfl, ?_⟩
    rw [List.mem_singleton]
    rintro rfl
    cases hsign
  | notEqual => exact .inr ⟨rfl, by decide⟩

/-- Texts are spelled with two quotes, other tokens with none. -/
theorem SpelledAs.count_quote {found : Token} {spelled : List Char} (h : SpelledAs found spelled) :
    spelled.count '"' = 2 * [found].countP Token.isText := by
  rcases h.text_or_unquoted with ⟨cs, rfl, rfl, hcs⟩ | ⟨hnot, hspelled⟩
  · simp [List.count_append, List.count_eq_zero.mpr hcs, Token.isText]
  · simp [List.count_eq_zero.mpr hspelled, hnot]

/-- Between the quotes of a spelling stand the characters of the text. -/
theorem SpelledAs.quotedLength {found : Token} {spelled : List Char} (h : SpelledAs found spelled)
    (rest : List Char) :
    quotedLength false (spelled ++ rest) = found.textLength + quotedLength false rest := by
  rcases h.text_or_unquoted with ⟨cs, rfl, rfl, hcs⟩ | ⟨hnot, hspelled⟩
  · rw [List.cons_append, quotedLength_quote, List.append_assoc, quotedLength_append hcs,
      List.singleton_append, quotedLength_quote]
    simp [Token.textLength]
  · rw [quotedLength_append hspelled, textLength_of_not_isText hnot]
    simp

namespace Part

/-- No comment among the parts has a quote in it. -/
def Unquoted (ps : List Part) : Prop :=
  ∀ passed, Part.gap passed ∈ ps → '"' ∉ passed

/-- The number of texts among the tokens of some parts. -/
def textCount (ps : List Part) : Nat :=
  (tokens ps).countP Token.isText

@[simp] theorem textCount_gap (passed : List Char) (ps : List Part) :
    textCount (.gap passed :: ps) = textCount ps := rfl

/-- The first of some tokens counts if it is a text. -/
theorem textCount_token (found : Token) (spelled : List Char) (ps : List Part) :
    textCount (.token found spelled :: ps) = [found].countP Token.isText + textCount ps := by
  rw [textCount, tokens_token, ← List.singleton_append, List.countP_append, textCount]

/-- A token that is no text does not count. -/
theorem textCount_of_not_isText {found : Token} (h : found.isText = false) (spelled : List Char)
    (ps : List Part) : textCount (.token found spelled :: ps) = textCount ps := by
  simp [textCount, h]

/-- Blanks are no quotes. -/
theorem not_quote_of_blanks {cs : List Char} (h : ∀ d ∈ cs, isBlank d = true) : '"' ∉ cs :=
  fun hmem => absurd (h _ hmem) (by decide)

/-- Of the quotes of proper parts, those of texts are left. -/
theorem count_quote_keptTexts {ps : List Part} (hproper : ∀ p ∈ ps, p.Proper) :
    (keptTexts ps).count '"' = 2 * textCount ps := by
  induction ps with
  | nil => rfl
  | cons p ps ih =>
    obtain ⟨hp, hps⟩ := List.forall_mem_cons.mp hproper
    rw [keptTexts_cons, List.count_append, ih hps]
    cases p with
    | gap passed => simp [kept, List.count_eq_zero.mpr (not_quote_of_blanks hp.1)]
    | token found spelled =>
      rw [kept, SpelledAs.count_quote hp, textCount_token]
      omega

/-- Each text takes two quotes. -/
theorem two_mul_textCount_le {ps : List Part} (hproper : ∀ p ∈ ps, p.Proper) :
    2 * textCount ps ≤ (texts ps).count '"' := by
  induction ps with
  | nil => exact Nat.le_refl _
  | cons p ps ih =>
    obtain ⟨hp, hps⟩ := List.forall_mem_cons.mp hproper
    have hle := ih hps
    rw [texts_cons, List.count_append]
    cases p with
    | gap passed =>
      rw [textCount_gap]
      omega
    | token found spelled =>
      rw [text, SpelledAs.count_quote hp, textCount_token]
      omega

/-- There are other quotes only in comments. -/
theorem unquoted_iff {ps : List Part} (hproper : ∀ p ∈ ps, p.Proper) :
    Unquoted ps ↔ (texts ps).count '"' = 2 * textCount ps := by
  induction ps with
  | nil => simp [Unquoted, textCount]
  | cons p ps ih =>
    obtain ⟨hp, hps⟩ := List.forall_mem_cons.mp hproper
    have hle := two_mul_textCount_le hps
    have hrest := ih hps
    rw [texts_cons, List.count_append]
    cases p with
    | gap passed =>
      have hunquoted : Unquoted (.gap passed :: ps) ↔ '"' ∉ passed ∧ Unquoted ps := by
        simp [Unquoted, or_imp, forall_and]
      rw [hunquoted, hrest, ← List.count_eq_zero, textCount_gap, text]
      omega
    | token found spelled =>
      have hunquoted : Unquoted (.token found spelled :: ps) ↔ Unquoted ps := by
        simp [Unquoted]
      rw [hunquoted, hrest, text, SpelledAs.count_quote hp, textCount_token]
      omega

/-- Between quotes stand the characters of the texts. -/
theorem quotedLength_texts {ps : List Part} (hproper : ∀ p ∈ ps, p.Proper) (h : Unquoted ps) :
    quotedLength false (texts ps) = Token.totalTextLength (tokens ps) := by
  induction ps with
  | nil => rfl
  | cons p ps ih =>
    obtain ⟨hp, hps⟩ := List.forall_mem_cons.mp hproper
    have hrest := ih hps fun passed hmem => h passed (List.mem_cons_of_mem _ hmem)
    rw [texts_cons]
    cases p with
    | gap passed =>
      rw [text, quotedLength_append (h passed List.mem_cons_self), hrest]
      simp
    | token found spelled =>
      rw [text, SpelledAs.quotedLength hp, hrest, tokens_token, Token.totalTextLength]

end Part

/-! ## Comments inside texts -/

/-- No comment opens inside a token that is no text. -/
theorem opensInside_of_not_isText {found : Token} {c : Char} {cs rest : List Char}
    (h : SpelledAs found (c :: cs)) (hnot : found.isText = false) (hdetached : Detached c rest) :
    Comment.opensInside (c :: cs) rest = false := by
  generalize hspelled : c :: cs = spelled at h
  cases h with
  | integer hc hcs =>
    refine Comment.opensInside_of_not_mem (not_mem_of_class (p := Char.isDigit) rfl ?_) _
    exact List.forall_mem_cons.mpr ⟨hc, hcs⟩
  | word hc hcs =>
    refine Comment.opensInside_of_not_mem (not_mem_of_class (p := isNameChar) rfl ?_) _
    exact List.forall_mem_cons.mpr ⟨isNameChar_of_isAlpha hc, hcs⟩
  | text => cases hnot
  | symbol =>
    obtain ⟨rfl, rfl⟩ := List.cons.inj hspelled
    simp [Comment.opensInside, hdetached.comment]
  | notEqual => exact Comment.opensInside_of_not_mem (by decide) _

/-- If stripping removes no quotes and leaves as much between quotes as there was, it has removed
nothing from texts. -/
theorem isSealed_of_count_eq {text : List Char} {ps : List Part} (h : Divides text ps)
    (hunquoted : Part.Unquoted ps)
    (hcount : (Comment.strip text).count '"' = text.count '"')
    (hlength : quotedLength false text ≤ quotedLength false (Comment.strip text)) :
    Part.isSealed ps = true := by
  induction h with
  | nil => rfl
  | @gap c cs passed rest ps hscan hrest ih =>
    obtain ⟨hblanks, hstrip⟩ := proper_of_skip hscan
    obtain ⟨tail, rfl, rfl, -⟩ := scan_skip hscan
    have hpassed : '"' ∉ c :: tail := hunquoted _ List.mem_cons_self
    have hkept := Part.not_quote_of_blanks hblanks
    rw [← List.cons_append, hstrip] at hcount hlength
    rw [List.count_append, List.count_append, List.count_eq_zero.mpr hpassed,
      List.count_eq_zero.mpr hkept, Nat.zero_add, Nat.zero_add] at hcount
    rw [quotedLength_append hpassed, quotedLength_append hkept] at hlength
    refine ih (fun p hp => hunquoted p (List.mem_cons_of_mem _ hp)) hcount ?_
    simpa using hlength
  | @token c cs spelled rest found ps hscan hrest ih =>
    obtain ⟨tail, rfl, rfl, hspelled, hdetached⟩ := scan_token hscan
    rw [← List.cons_append] at hcount hlength
    have hinside : Comment.opensInside (c :: tail) rest = false := by
      rw [Bool.eq_false_iff]
      intro hopens
      rcases hspelled.text_or_unquoted with ⟨value, rfl, hvalue, hquote⟩ | ⟨hnot, -⟩
      · obtain ⟨rfl, rfl⟩ := List.cons.inj hvalue
        have hfirst (r : List Char) : Comment.split? ('"' :: r) = none :=
          Comment.split?_of_ne (by decide) r
        have hlater : Comment.opensInside (value ++ ['"']) rest = true := by
          rw [Comment.opensInside, List.cons_append, hfirst] at hopens
          simpa using hopens
        simp only [List.cons_append, List.append_assoc, List.nil_append] at hcount hlength
        -- a comment that opens inside a text would shorten what stands between quotes
        have hlt := Comment.quotedLength_strip_lt hquote hlater
          (Comment.count_quote_eq_of_cons (hfirst _) hcount)
        rw [Comment.strip_cons (hfirst _), quotedLength_quote, quotedLength_quote] at hlength
        exact absurd hlength (Nat.not_le_of_lt hlt)
      · rw [opensInside_of_not_isText hspelled hnot hdetached] at hopens
        cases hopens
    rw [Comment.strip_append_of_not_opensInside hinside] at hcount hlength
    rw [List.count_append, List.count_append, Nat.add_left_cancel_iff] at hcount
    rw [hspelled.quotedLength, hspelled.quotedLength, Nat.add_le_add_iff_left] at hlength
    have hlater := ih (fun p hp => hunquoted p (List.mem_cons_of_mem _ hp)) hcount hlength
    rw [Part.isSealed, hrest.texts_eq, hinside, hlater]
    rfl

/-- If the comments of a text have no quotes, the same tokens are left only if no comment opens
inside a text. -/
theorem isSealed_of_tokens_eq {text : List Char} {ps qs : List Part} (hps : Divides text ps)
    (hqs : Divides (Comment.strip text) qs) (hunquoted : Part.Unquoted ps)
    (htokens : Part.tokens qs = Part.tokens ps) : Part.isSealed ps = true := by
  have htexts : Part.textCount qs = Part.textCount ps := by
    rw [Part.textCount, htokens, Part.textCount]
  have hbefore := (Part.unquoted_iff hps.proper).mp hunquoted
  have hafter := Part.two_mul_textCount_le hqs.proper
  have hle := Comment.count_quote_strip_le text
  rw [hps.texts_eq] at hbefore
  rw [hqs.texts_eq] at hafter
  have hcount : (Comment.strip text).count '"' = text.count '"' := by omega
  have hunquoted' : Part.Unquoted qs := by
    rw [Part.unquoted_iff hqs.proper, hqs.texts_eq]
    omega
  refine isSealed_of_count_eq hps hunquoted hcount (Nat.le_of_eq ?_)
  rw [← hps.texts_eq, Part.quotedLength_texts hps.proper hunquoted, ← htokens,
    ← Part.quotedLength_texts hqs.proper hunquoted', hqs.texts_eq, hps.texts_eq]

/-! ## Tokens that run together -/

/-- The last of some parts have no more tokens than all of them. -/
theorem Part.length_tokens_le {ps rs : List Part} (h : rs <:+ ps) :
    (tokens rs).length ≤ (tokens ps).length := by
  obtain ⟨qs, rfl⟩ := h
  simp

/-- The last of some parts have no more texts than all of them. -/
theorem Part.textCount_le {ps rs : List Part} (h : rs <:+ ps) : textCount rs ≤ textCount ps := by
  obtain ⟨qs, rfl⟩ := h
  simp [textCount]

/-- What is dropped as long as it belongs to a class is the parts up to some part. -/
theorem exists_suffix_dropWhile {p : Char → Bool} {q : Token → Bool} (hclass : SpellsWith p q)
    {ps : List Part} (hproper : ∀ x ∈ ps, x.Proper) :
    ∃ rs, rs <:+ ps ∧ (Part.keptTexts ps).dropWhile p = Part.keptTexts rs ∧
      ((Part.next? ps).any q = true → (Part.tokens rs).length < (Part.tokens ps).length) := by
  induction ps with
  | nil => exact ⟨[], List.suffix_refl _, rfl, nofun⟩
  | cons x ps ih =>
    obtain ⟨hx, hps⟩ := List.forall_mem_cons.mp hproper
    obtain ⟨rs, hsuffix, hdrop, hlength⟩ := ih hps
    cases x with
    | gap passed =>
      rw [Part.keptTexts_cons, Part.kept, Part.next?]
      cases hkept : Comment.strip passed with
      | nil => exact ⟨rs, hsuffix.trans (List.suffix_cons _ _), hdrop, hlength⟩
      | cons d ds =>
        have hd := hclass.blank (hx.1 d (by simp [hkept]))
        refine ⟨.gap passed :: ps, List.suffix_refl _, ?_, by simp⟩
        rw [List.cons_append, List.dropWhile_cons_of_neg (by simp [hd]), Part.keptTexts_cons,
          Part.kept, hkept, List.cons_append]
    | token found spelled =>
      cases spelled with
      | nil => cases hx
      | cons c cs =>
        rw [Part.keptTexts_cons, Part.kept]
        by_cases hq : q found = true
        · refine ⟨rs, hsuffix.trans (List.suffix_cons _ _), ?_, fun _ => ?_⟩
          · rw [List.dropWhile_append_of_pos (hclass.all hx hq), hdrop]
          · exact Nat.lt_succ_of_le (Part.length_tokens_le hsuffix)
        · have hc : p c = false := by rw [hclass.first hx, Bool.eq_false_iff]; exact hq
          refine ⟨.token found (c :: cs) :: ps, List.suffix_refl _, ?_, ?_⟩
          · rw [List.cons_append, List.dropWhile_cons_of_neg (by simp [hc]), Part.keptTexts_cons,
              Part.kept, List.cons_append]
          · intro hnext
            exact absurd (by simpa [Part.next?] using hnext) hq

/-- A slash or a star outside texts is a token of its own. -/
theorem SpelledAs.eq_nil_of_mark {found : Token} {mark : Char} {front back : List Char}
    (hmark : mark = '/' ∨ mark = '*') (h : SpelledAs found (front ++ mark :: back))
    (hfront : '"' ∉ front) : front = [] ∧ back = [] := by
  have hmem : mark ∈ front ++ mark :: back := by simp
  have hclass {p : Char → Bool} (hp : p '/' = false ∧ p '*' = false)
      (hall : ∀ d ∈ front ++ mark :: back, p d = true) : False := by
    rcases hmark with rfl | rfl
    · exact not_mem_of_class hp.1 hall hmem
    · exact not_mem_of_class hp.2 hall hmem
  generalize hspelled : front ++ mark :: back = spelled at h hclass
  cases h with
  | integer hc hcs =>
    exact (hclass (p := Char.isDigit) ⟨rfl, rfl⟩ (List.forall_mem_cons.mpr ⟨hc, hcs⟩)).elim
  | word hc hcs =>
    exact (hclass (p := isNameChar) ⟨rfl, rfl⟩
      (List.forall_mem_cons.mpr ⟨isNameChar_of_isAlpha hc, hcs⟩)).elim
  | text =>
    cases front with
    | nil =>
      obtain ⟨rfl, -⟩ := List.cons.inj hspelled
      rcases hmark with hmark | hmark <;> cases hmark
    | cons c front =>
      obtain ⟨rfl, -⟩ := List.cons.inj hspelled
      exact absurd List.mem_cons_self hfront
  | symbol =>
    cases front with
    | nil => exact ⟨rfl, (List.cons.inj hspelled).2⟩
    | cons c front => simp at hspelled
  | notEqual =>
    rw [hspelled] at hmem
    rcases hmark with rfl | rfl <;> simp at hmem

/-- Outside texts a slash or a star is found at the end of some part. -/
theorem exists_suffix_of_mark {ps : List Part} (hproper : ∀ x ∈ ps, x.Proper) {mark : Char}
    (hmark : mark = '/' ∨ mark = '*') (front : List Char) {rest : List Char} (hfront : '"' ∉ front)
    (h : Part.keptTexts ps = front ++ mark :: rest) :
    ∃ rs, rs <:+ ps ∧ Part.keptTexts rs = rest := by
  induction ps generalizing front with
  | nil => simp at h
  | cons x ps ih =>
    obtain ⟨hx, hps⟩ := List.forall_mem_cons.mp hproper
    rw [Part.keptTexts_cons] at h
    rcases List.append_eq_append_iff.mp h with ⟨later, rfl, hlater⟩ | ⟨back, hkept, hback⟩
    · have hnot : '"' ∉ later := fun hmem => hfront (List.mem_append_right _ hmem)
      obtain ⟨rs, hsuffix, hrs⟩ := ih hps later hnot hlater
      exact ⟨rs, hsuffix.trans (List.suffix_cons _ _), hrs⟩
    · cases back with
      | nil =>
        obtain ⟨rs, hsuffix, hrs⟩ := ih hps [] nofun hback.symm
        exact ⟨rs, hsuffix.trans (List.suffix_cons _ _), hrs⟩
      | cons c back =>
        obtain ⟨rfl, rfl⟩ := List.cons.inj hback
        cases x with
        | gap passed =>
          have hblank : isBlank mark = true := hx.1 mark (by rw [Part.kept] at hkept; simp [hkept])
          rcases hmark with rfl | rfl <;> cases hblank
        | token found spelled =>
          rw [Part.kept] at hkept
          obtain ⟨-, rfl⟩ := SpelledAs.eq_nil_of_mark hmark (hkept ▸ hx) hfront
          exact ⟨ps, List.suffix_cons _ _, rfl⟩

/-- A close outside texts is found at the end of some part. -/
theorem exists_suffix_of_close {ps : List Part} (hproper : ∀ x ∈ ps, x.Proper)
    {front rest : List Char} (hfront : '"' ∉ front)
    (h : Part.keptTexts ps = front ++ '*' :: '/' :: rest) :
    ∃ rs, rs <:+ ps ∧ Part.keptTexts rs = rest := by
  obtain ⟨qs, hqs, hslash⟩ := exists_suffix_of_mark hproper (.inr rfl) front hfront h
  have hproper' : ∀ x ∈ qs, x.Proper := fun x hx => hproper x (hqs.subset hx)
  obtain ⟨rs, hrs, hrest⟩ := exists_suffix_of_mark hproper' (.inl rfl) [] nofun hslash
  exact ⟨rs, hrs.trans hqs, hrest⟩

/-- Where a token runs together with the parts behind it, the lexer goes on behind at least one more
token, or it passes over a comment that the token opens. -/
theorem scan_of_runsTogether {found : Token} {c : Char} {cs : List Char} {ps : List Part}
    (hspelled : SpelledAs found (c :: cs)) (hproper : ∀ x ∈ ps, x.Proper)
    (hruns : Part.runsTogether found ps = true) :
    (∃ t spelled rs, rs <:+ ps ∧ t.isText = false ∧
      scan c (cs ++ Part.keptTexts ps) = .token t spelled (Part.keptTexts rs) ∧
      (Part.tokens rs).length < (Part.tokens ps).length) ∨
    ∃ body rest, Part.keptTexts ps = '*' :: body ++ '*' :: '/' :: rest ∧
      scan c (cs ++ Part.keptTexts ps) = .skip ('/' :: '*' :: body ++ ['*', '/']) rest := by
  generalize hc : c :: cs = spelled at hspelled
  cases hspelled with
  | integer hdigit hcs =>
    obtain ⟨rfl, rfl⟩ := List.cons.inj hc
    obtain ⟨rs, hsuffix, hdrop, hlength⟩ := exists_suffix_dropWhile spellsWith_digits hproper
    have hscan := scan_of_isDigit hdigit (cs ++ Part.keptTexts ps)
    rw [List.dropWhile_append_of_pos hcs, hdrop] at hscan
    exact .inl ⟨_, _, rs, hsuffix, rfl, hscan, hlength hruns⟩
  | word halpha hcs =>
    obtain ⟨rfl, rfl⟩ := List.cons.inj hc
    obtain ⟨rs, hsuffix, hdrop, hlength⟩ := exists_suffix_dropWhile spellsWith_nameChars hproper
    have hscan := scan_of_isAlpha halpha (cs ++ Part.keptTexts ps)
    rw [List.dropWhile_append_of_pos hcs, hdrop] at hscan
    rw [Part.runsTogether_wordToken] at hruns
    exact .inl ⟨_, _, rs, hsuffix, isText_wordToken _, hscan, hlength hruns⟩
  | text => cases hruns
  | @symbol _ sign hsign =>
    obtain ⟨rfl, rfl⟩ := List.cons.inj hc
    obtain rfl : sign = .slash := by
      unfold Part.runsTogether at hruns
      split at hruns <;> simp_all
    obtain rfl := eq_slash_of_ofChar? hsign
    obtain ⟨⟨body, rest⟩, hcomment⟩ := Option.isSome_iff_exists.mp hruns
    exact .inr ⟨body, rest, (List.cons.inj (Comment.eq_of_split? hcomment)).2, scan_comment hcomment⟩
  | notEqual => cases hruns

/-- Behind a token that runs together with others the lexer goes on at some part, with at least one
token lost, if no quote is lost. -/
theorem exists_suffix_of_runsTogether {found : Token} {c : Char} {cs : List Char}
    {ps qs : List Part} (hspelled : SpelledAs found (c :: cs)) (hproper : ∀ x ∈ ps, x.Proper)
    (hruns : Part.runsTogether found ps = true)
    (hqs : Divides (c :: cs ++ Part.keptTexts ps) qs)
    (htexts : Part.textCount (.token found (c :: cs) :: ps) ≤ Part.textCount qs) :
    ∃ rs us, rs <:+ ps ∧ Divides (Part.keptTexts rs) us ∧ Part.textCount us = Part.textCount qs ∧
      (Part.tokens qs).length + (Part.tokens rs).length <
        (Part.tokens us).length + (Part.tokens ps).length + 1 := by
  rcases scan_of_runsTogether hspelled hproper hruns with
    ⟨t, spelled, rs, hrs, ht, hscan, hdropped⟩ | ⟨body, rest, hkept, hscan⟩
  · obtain ⟨us, rfl, hus⟩ := hqs.of_token hscan
    refine ⟨rs, us, hrs, hus, (Part.textCount_of_not_isText ht _ _).symm, ?_⟩
    rw [Part.tokens_token, List.length_cons]
    omega
  · obtain ⟨us, rfl, hus⟩ := hqs.of_skip hscan
    -- The comment has no quote in it: every quote is needed for the texts.
    have hcomment : '"' ∉ '/' :: '*' :: body ++ ['*', '/'] := by
      have hall : ∀ x ∈ Part.token found (c :: cs) :: ps, x.Proper :=
        List.forall_mem_cons.mpr ⟨hspelled, hproper⟩
      have hbefore := Part.count_quote_keptTexts hall
      have hafter := Part.two_mul_textCount_le hus.proper
      rw [Part.keptTexts_cons, Part.kept, ← hqs.texts_eq, Part.texts_cons, List.count_append,
        Part.text] at hbefore
      rw [Part.textCount_gap] at htexts
      rw [← List.count_eq_zero]
      omega
    have hbody : '"' ∉ '*' :: body := fun hmem =>
      hcomment (List.mem_cons_of_mem _ (List.mem_append_left ['*', '/'] hmem))
    obtain ⟨rs, hrs, rfl⟩ := exists_suffix_of_close hproper hbody hkept
    have hle := Part.length_tokens_le hrs
    refine ⟨rs, us, hrs, hus, rfl, ?_⟩
    rw [Part.tokens_gap]
    omega

/-- Where tokens run together, fewer are left, unless the text has lost a quote. -/
theorem isApart_of_divides {ps qs : List Part} (hproper : ∀ p ∈ ps, p.Proper)
    (hqs : Divides (Part.keptTexts ps) qs) (htexts : Part.textCount ps ≤ Part.textCount qs) :
    (Part.tokens qs).length ≤ (Part.tokens ps).length ∧
      ((Part.tokens ps).length ≤ (Part.tokens qs).length → Part.isApart ps = true) := by
  -- By induction on the number of parts: a token that runs together with others takes us several
  -- parts further.
  induction hlength : ps.length using Nat.strong_induction_on generalizing ps qs with
  | _ n ih =>
    match ps, hproper with
    | [], _ =>
      cases hqs
      exact ⟨Nat.le_refl _, fun _ => rfl⟩
    | .gap passed :: ps, hproper =>
      obtain ⟨hblanks, hps⟩ := List.forall_mem_cons.mp hproper
      obtain ⟨rs, hrs, htokens⟩ := Divides.of_blanks hblanks.1 hqs
      rw [Part.textCount, Part.textCount, ← htokens] at htexts
      rw [← htokens]
      have hrest := ih ps.length (by simp [← hlength]) hps hrs htexts rfl
      exact hrest
    | .token found [] :: ps, hproper => cases (List.forall_mem_cons.mp hproper).1
    | .token found (c :: cs) :: ps, hproper =>
      obtain ⟨hspelled, hps⟩ := List.forall_mem_cons.mp hproper
      by_cases hruns : Part.runsTogether found ps = true
      · obtain ⟨rs, us, hrs, hus, hcount, hfewer⟩ :=
          exists_suffix_of_runsTogether hspelled hps hruns hqs htexts
        have hshorter : rs.length < n := by
          rw [← hlength]
          exact Nat.lt_succ_of_le hrs.length_le
        have hle := Part.textCount_le (hrs.trans (List.suffix_cons (.token found (c :: cs)) ps))
        have hrest := (ih _ hshorter (fun x hx => hps x (hrs.subset hx)) hus (by omega) rfl).1
        rw [Part.tokens_token, List.length_cons]
        omega
      · rw [Bool.not_eq_true] at hruns
        have hdetached := (detached_keptTexts_iff hspelled hps).mpr hruns
        obtain ⟨us, rfl, hus⟩ := hqs.of_token (scan_of_spelledAs hspelled hdetached)
        rw [Part.textCount_token, Part.textCount_token, Nat.add_le_add_iff_left] at htexts
        obtain ⟨hle, hapart⟩ := ih ps.length (by simp [← hlength]) hps hus htexts rfl
        refine ⟨Nat.succ_le_succ hle, fun hle' => ?_⟩
        rw [Part.isApart, hruns, hapart (Nat.le_of_succ_le_succ hle')]
        rfl

end Lexer

/-! ## Sources without directives -/

namespace Library

/-- Pieces without a directive expand to their text. -/
theorem expands_of_divides (l : Library) {inWord : Bool} {ps : List Piece} {text : List Char}
    (h : Piece.Divides inWord ps text) (hnone : ps.filterMap Piece.name? = []) :
    l.Expands ps text := by
  induction h with
  | nil => exact .nil
  | directive => simp at hnone
  | char _ _ ih => exact .char (ih (by simpa using hnone))

/-- A source without directives is expanded to its text without comments. -/
theorem expand_of_includedNames_eq_nil (l : Library) {source : String}
    (h : includedNames source.toList = []) :
    l.expand source = .ok (String.ofList (Comment.strip source.toList)) :=
  expand_eq_ok_iff.mpr (l.expands_of_divides (Piece.divides_split false _) h)

end Library

/-- The source is read as these tokens. -/
def HasTokens (source : String) (ts : List Token) : Prop :=
  ∃ ls, lex source = .ok ls ∧ ls.map (·.token) = ts

/-- A source is read as tokens exactly if it can be taken apart into parts with these tokens. -/
theorem hasTokens_iff {source : String} {ts : List Token} :
    HasTokens source ts ↔
      ∃ ps, Lexer.Divides source.toList ps ∧ Lexer.Part.tokens ps = ts := by
  constructor
  · rintro ⟨ls, hlex, rfl⟩
    obtain ⟨ps, hps, rfl⟩ := Lexer.lexFrom_eq_ok_iff.mp hlex
    exact ⟨ps, hps, (Lexer.map_token_place 0 ps).symm⟩
  · rintro ⟨ps, hps, rfl⟩
    exact ⟨_, Lexer.lexFrom_of_divides hps 0, Lexer.map_token_place 0 ps⟩

open Lexer.Part in
/-- A source without directives always expands. If no comment opens inside a text of it, it has the
same tokens afterwards exactly if no tokens of it run together where comments are removed. And if no
comment of it has a quote in it, it has the same tokens only if no comment opens inside a text. -/
theorem hasTokens_expand (l : Library) {source : String} {ts : List Token}
    (hsource : HasTokens source ts) (hplain : includedNames source.toList = []) :
    ∃ text, l.expand source = .ok text ∧
      (isSealed (Lexer.parts source.toList) = true →
        (HasTokens text ts ↔ isApart (Lexer.parts source.toList) = true)) ∧
      (Unquoted (Lexer.parts source.toList) → HasTokens text ts →
        isSealed (Lexer.parts source.toList) = true) := by
  obtain ⟨ps, hps, rfl⟩ := hasTokens_iff.mp hsource
  rw [hps.parts_eq]
  refine ⟨_, l.expand_of_includedNames_eq_nil hplain, fun hsealed => ?_, fun hunquoted hafter => ?_⟩
  · rw [hasTokens_iff, String.toList_ofList, Lexer.strip_eq_keptTexts hps hsealed]
    constructor
    · rintro ⟨qs, hqs, htokens⟩
      have htexts : textCount ps ≤ textCount qs := by rw [textCount, textCount, htokens]
      exact (Lexer.isApart_of_divides hps.proper hqs htexts).2 (by rw [htokens])
    · intro hapart
      exact Lexer.divides_keptTexts hps.proper hapart
  · obtain ⟨qs, hqs, htokens⟩ := hasTokens_iff.mp hafter
    rw [String.toList_ofList] at hqs
    exact Lexer.isSealed_of_tokens_eq hps hqs hunquoted htokens

/-- A source is read as one list of tokens only. -/
theorem HasTokens.unique {source : String} {ts ts' : List Token} (h : HasTokens source ts)
    (h' : HasTokens source ts') : ts = ts' := by
  obtain ⟨ls, hls, rfl⟩ := h
  obtain ⟨ls', hls', rfl⟩ := h'
  rw [Except.ok.inj (hls.symm.trans hls')]

/-- A successful reading may be evaluated as an option, whose equality is decidable. -/
theorem hasTokens_of_toOption {source : String} {ts : List Token}
    (h : (lex source).toOption.map (·.map (·.token)) = some ts) : HasTokens source ts := by
  unfold HasTokens
  cases hlex : lex source with
  | error e =>
    rw [hlex] at h
    cases h
  | ok ls =>
    rw [hlex] at h
    exact ⟨ls, rfl, Option.some.inj h⟩

/-- A library without files. -/
def emptyLibrary : Library :=
  ⟨.ofList [], ""⟩

/-- A source with a comment right behind a word, a comment that keeps two numbers apart by the
newline in it, and a text that opens a comment nobody closes. -/
def commentedSource : String :=
  "puts f/* a */| 1/*\n*/2 / \"/*\""

/-- The tokens of `commentedSource` are the same when its comments are stripped. -/
theorem hasTokens_expand_commentedSource :
    HasTokens commentedSource [.keyword .puts, .name "f", .symbol .pipe, .integer 1, .integer 2,
      .symbol .slash, .text "/*"] ∧
    includedNames commentedSource.toList = [] ∧
    ∃ text, emptyLibrary.expand commentedSource = .ok text ∧
      HasTokens text [.keyword .puts, .name "f", .symbol .pipe, .integer 1, .integer 2,
        .symbol .slash, .text "/*"] := by
  have htokens : HasTokens commentedSource [.keyword .puts, .name "f", .symbol .pipe, .integer 1,
      .integer 2, .symbol .slash, .text "/*"] :=
    hasTokens_of_toOption (by decide +kernel)
  have hplain : includedNames commentedSource.toList = [] := by decide +kernel
  obtain ⟨text, hexpand, hiff, -⟩ := hasTokens_expand emptyLibrary htokens hplain
  exact ⟨htokens, hplain, text, hexpand, (hiff (by decide +kernel)).mpr (by decide +kernel)⟩

/-- A text with a comment in it loses the comment, and two numbers with nothing but a comment
between them become one number. -/
theorem expand_changes_tokens :
    (HasTokens "puts \"/* x */\"" [.keyword .puts, .text "/* x */"] ∧
      includedNames "puts \"/* x */\"".toList = [] ∧
      emptyLibrary.expand "puts \"/* x */\"" = .ok "puts \"\"" ∧
      ¬HasTokens "puts \"\"" [.keyword .puts, .text "/* x */"]) ∧
    (HasTokens "1/**/2" [.integer 1, .integer 2] ∧ includedNames "1/**/2".toList = [] ∧
      emptyLibrary.expand "1/**/2" = .ok "12" ∧ ¬HasTokens "12" [.integer 1, .integer 2]) := by
  have hexpand {source text : String} (hplain : includedNames source.toList = [])
      (htext : String.ofList (Comment.strip source.toList) = text) :
      emptyLibrary.expand source = .ok text :=
    htext ▸ emptyLibrary.expand_of_includedNames_eq_nil hplain
  have hnot {text : String} {ts : List Token} (ts' : List Token)
      (h : (lex text).toOption.map (·.map (·.token)) = some ts') (hne : ts ≠ ts') :
      ¬HasTokens text ts :=
    fun hts => hne (hts.unique (hasTokens_of_toOption h))
  refine ⟨⟨hasTokens_of_toOption ?_, ?_, hexpand ?_ ?_, hnot [.keyword .puts, .text ""] ?_ ?_⟩,
    ⟨hasTokens_of_toOption ?_, ?_, hexpand ?_ ?_, hnot [.integer 12] ?_ ?_⟩⟩
  all_goals decide +kernel

end Duet
