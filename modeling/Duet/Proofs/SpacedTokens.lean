import Duet.Proofs.CommentStripping
import Duet.Proofs.TokenPatterns

/-!
# Spelling and then lexing

Tokens that are written one after the other, with blanks between them, are read back as the same
tokens (`lex_spaced`). It does not matter which blanks stand there and how many, nor what stands
inside a text: a token ends where a blank follows (`detached_of_isBlank`), so that no digit or
character of a name is added to it, and a slash with a blank behind it opens no comment.
-/

namespace Duet

/-- A token as it is written: blanks, and then a spelling of it. -/
structure SpacedToken where
  blanks : List Char
  token : Token
  spelled : List Char
  blank : ∀ c ∈ blanks, Lexer.isBlank c = true
  /-- A name is a word that is not reserved, and a text holds no quote. -/
  wellSpelled : token.WellSpelled
  isSpelling : token.IsSpelling spelled

/-- The shortest spelling of a token spells it. -/
theorem Token.isSpelling_spelling (t : Token) : t.IsSpelling t.spelling.toList := by
  cases t with
  | integer value => exact ⟨0, rfl⟩
  | _ => rfl

namespace SpacedToken

/-- A token in its shortest spelling. -/
def ofToken (blanks : List Char) (token : Token) (hblanks : ∀ c ∈ blanks, Lexer.isBlank c = true)
    (htoken : token.WellSpelled) : SpacedToken where
  blanks := blanks
  token := token
  spelled := token.spelling.toList
  blank := hblanks
  wellSpelled := htoken
  isSpelling := token.isSpelling_spelling

/-- The characters of a token and of the blanks before it. -/
def text (w : SpacedToken) : List Char :=
  w.blanks ++ w.spelled

/-- The characters of some tokens with blanks at the end. -/
def texts (ws : List SpacedToken) (trailing : List Char) : List Char :=
  ws.flatMap text ++ trailing

end SpacedToken

namespace Lexer

/-- A spelling has a first character. -/
theorem SpelledAs.exists_cons {t : Token} {spelled : List Char} (h : SpelledAs t spelled) :
    ∃ c tail, spelled = c :: tail := by
  cases h <;> exact ⟨_, _, rfl⟩

/-- Blanks detach any token. -/
theorem detached_of_isBlank (c : Char) {rest : List Char}
    (h : ∀ d ∈ rest.head?, isBlank d = true) : Detached c rest where
  digits _ d hd := eq_false_of_isBlank rfl (h d hd)
  word _ d hd := eq_false_of_isBlank rfl (h d hd)
  comment := by
    unfold Comment.split?
    split
    · next heq =>
      obtain ⟨-, rfl⟩ := List.cons.inj heq
      exact absurd (h '*' rfl) (by decide)
    · rfl

end Lexer

namespace SpacedToken

open Lexer

/-- Blanks or nothing come first if no token stands directly at the front. -/
theorem isBlank_head_texts {ws : List SpacedToken} {trailing : List Char}
    (hapart : ∀ w ∈ ws, w.blanks ≠ []) (htrailing : ∀ c ∈ trailing, isBlank c = true) :
    ∀ d ∈ (texts ws trailing).head?, isBlank d = true := by
  intro d hd
  cases ws with
  | nil => exact htrailing d (List.mem_of_mem_head? hd)
  | cons w ws =>
    obtain ⟨b, blanks, hblanks⟩ := List.exists_cons_of_ne_nil (hapart w List.mem_cons_self)
    have hhead : d = b := by
      simpa [texts, text, hblanks, eq_comm] using hd
    rw [hhead]
    exact w.blank b (by simp [hblanks])

/-- The lexer takes tokens with blanks between them apart into these tokens. -/
theorem exists_divides_texts {ws : List SpacedToken} (hapart : ∀ w ∈ ws.tail, w.blanks ≠ [])
    {trailing : List Char} (htrailing : ∀ c ∈ trailing, isBlank c = true) :
    ∃ ps, Divides (texts ws trailing) ps ∧ Part.tokens ps = ws.map (·.token) := by
  induction ws with
  | nil =>
    obtain ⟨ps, hps, htokens⟩ := divides_blanks htrailing .nil
    exact ⟨ps, by simpa [texts] using hps, htokens⟩
  | cons w ws ih =>
    obtain ⟨ps, hps, htokens⟩ := ih fun w hw => hapart w (List.mem_of_mem_tail hw)
    have hspelled := spelledAs_iff.mpr ⟨w.wellSpelled, w.isSpelling⟩
    obtain ⟨c, tail, hcons⟩ := hspelled.exists_cons
    rw [hcons] at hspelled
    -- The token ends where the blanks of the next one begin.
    have hdetached := detached_of_isBlank c (isBlank_head_texts hapart htrailing)
    have htoken : Divides (w.spelled ++ texts ws trailing) (.token w.token (c :: tail) :: ps) := by
      rw [hcons]
      exact .token (scan_of_spelledAs hspelled hdetached) hps
    obtain ⟨qs, hqs, hsame⟩ := divides_blanks w.blank htoken
    refine ⟨qs, by simpa [texts, text] using hqs, ?_⟩
    rw [hsame, Part.tokens_token, htokens, List.map_cons]

end SpacedToken

/-- **Spelling then lexing returns the tokens.** Tokens that are written in order, with at least one
blank between two of them and any blanks at both ends, are read as the same tokens. -/
theorem lex_spaced {ws : List SpacedToken} (hapart : ∀ w ∈ ws.tail, w.blanks ≠ [])
    {trailing : List Char} (htrailing : ∀ c ∈ trailing, Lexer.isBlank c = true) :
    ∃ ls, lex (String.ofList (SpacedToken.texts ws trailing)) = .ok ls ∧
      ls.map (·.token) = ws.map (·.token) := by
  obtain ⟨ps, hps, htokens⟩ := SpacedToken.exists_divides_texts hapart htrailing
  refine ⟨Lexer.place 0 ps, ?_, ?_⟩
  · rw [lex, String.toList_ofList]
    exact Lexer.lexFrom_of_divides hps 0
  · rw [Lexer.map_token_place, htokens]

/-- A slash and a star, a text that closes and opens a comment, an integer with zeros in front of
it, a name that begins with a reserved word, and this word. -/
def spacedOpeners : List SpacedToken :=
  [.ofToken [] (.symbol .slash) (List.forall_mem_nil _) trivial,
    .ofToken ['\n'] (.symbol .star) (List.all_eq_true.mp rfl) trivial,
    .ofToken [' ', '\t'] (.text "*/ /* ") (List.all_eq_true.mp rfl) (List.all_eq_true.mp rfl),
    ⟨['\x0c'], .integer 7, ['0', '0', '7'], List.all_eq_true.mp rfl, trivial, ⟨2, rfl⟩⟩,
    .ofToken ['\r'] (.name "end?") (List.all_eq_true.mp rfl)
      ⟨'e', ['n', 'd', '?'], rfl, rfl, List.all_eq_true.mp rfl, rfl⟩,
    .ofToken [' '] (.keyword .end_) (List.all_eq_true.mp rfl) trivial]

/-- The tokens of `spacedOpeners` come back from its text, although put side by side they would open
comments. -/
theorem lex_spaced_openers :
    String.ofList (SpacedToken.texts spacedOpeners [' ', '\n']) =
      "/\n* \t\"*/ /* \"\x0c007\rend? end \n" ∧
    (∀ w ∈ spacedOpeners.tail, w.blanks ≠ []) ∧ (∀ c ∈ [' ', '\n'], Lexer.isBlank c = true) ∧
    ∃ ls, lex "/\n* \t\"*/ /* \"\x0c007\rend? end \n" = .ok ls ∧
      ls.map (·.token) = [.symbol .slash, .symbol .star, .text "*/ /* ", .integer 7, .name "end?",
        .keyword .end_] := by
  have htext : String.ofList (SpacedToken.texts spacedOpeners [' ', '\n']) =
      "/\n* \t\"*/ /* \"\x0c007\rend? end \n" := rfl
  have hapart : ∀ w ∈ spacedOpeners.tail, w.blanks ≠ [] := by
    simp [spacedOpeners, SpacedToken.ofToken]
  have htrailing : ∀ c ∈ [' ', '\n'], Lexer.isBlank c = true := List.all_eq_true.mp rfl
  have hlex := lex_spaced hapart htrailing
  rw [htext] at hlex
  exact ⟨htext, hapart, htrailing, hlex⟩

end Duet
