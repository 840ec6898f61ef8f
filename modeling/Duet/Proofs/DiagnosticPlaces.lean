import Duet.Diagnostic.Terminal
import Duet.Proofs.ErrorRecovery
import Duet.Proofs.ErrorSpans
import Duet.Proofs.LongestMatch
import Duet.Proofs.SpanNesting
import Duet.Proofs.TextPositions

/-!
# Diagnostics point into the source that they quote

The labels of a failure have their spans from the lexer, from the parser, or from a node of the
program. All of these go back to tokens, and so they hold whole characters of the source
(`Span.PointsInto`).

To mark the start of a span in the quoted line, this is not enough: the quoted line lacks the
carriage returns before its end, and a place between them would lie outside. But the spans of labels
start next to a character that is not blank (`IsBeside`): at the first character of a token or of
something unreadable, or, at the end of the input, behind the last character of a token. Such a
place lies in the quoted part of its line (`nonempty_lineAt`).
-/

namespace Duet

/-! ## Places of a text -/

/-- A byte offset at which no character of the text is cut apart. -/
def IsBoundary (text : List Char) (offset : Nat) : Prop :=
  ∃ before after, text = before ++ after ∧ byteLength before = offset

/-- The offset lies next to a character that is not blank. -/
def IsBeside (text : List Char) (offset : Nat) : Prop :=
  ∃ before after, text = before ++ after ∧ byteLength before = offset ∧
    ((∃ c ∈ before.getLast?, Lexer.isBlank c = false) ∨
      ∃ c ∈ after.head?, Lexer.isBlank c = false)

/-- Next to a character no character is cut apart. -/
theorem IsBeside.isBoundary {text : List Char} {offset : Nat} (h : IsBeside text offset) :
    IsBoundary text offset := by
  obtain ⟨before, after, htext, hoffset, -⟩ := h
  exact ⟨before, after, htext, hoffset⟩

/-- The span holds whole characters of the text. -/
structure Span.PointsInto (text : List Char) (s : Span) : Prop where
  start_le_stop : s.start ≤ s.stop
  stop_le : s.stop ≤ byteLength text
  start_isBoundary : IsBoundary text s.start
  stop_isBoundary : IsBoundary text s.stop

/-- A span between two boundaries holds whole characters. -/
theorem Span.PointsInto.of_isBoundary {text : List Char} {s : Span} (hle : s.start ≤ s.stop)
    (hstart : IsBoundary text s.start) (hstop : IsBoundary text s.stop) : s.PointsInto text := by
  refine ⟨hle, ?_, hstart, hstop⟩
  obtain ⟨before, after, rfl, hlength⟩ := hstop
  rw [← hlength, byteLength_append]
  exact Nat.le_add_right _ _

/-- The span holds whole characters of the text and starts next to one that is not blank. -/
structure Span.Marks (text : List Char) (s : Span) : Prop where
  pointsInto : s.PointsInto text
  isBeside : IsBeside text s.start

/-! ## Tokens -/

namespace Lexer

/-- What the lexer does not skip does not begin with a blank. -/
theorem isBlank_eq_false_of_scan {c : Char} {cs : List Char}
    (h : ∀ passed rest, scan c cs ≠ .skip passed rest) : isBlank c = false := by
  rw [Bool.eq_false_iff]
  intro hblank
  exact h [c] cs (if_pos hblank)

/-- The last character of a spelling is not blank. -/
theorem SpelledAs.exists_getLast? {t : Token} {spelled : List Char} (h : SpelledAs t spelled) :
    ∃ c ∈ spelled.getLast?, isBlank c = false := by
  have hclass (p : Char → Bool) (hp : [' ', '\t', '\r', '\n', '\x0c'].any p = false) (c : Char)
      (cs : List Char) (hcs : ∀ d ∈ c :: cs, p d = true) :
      ∃ d ∈ (c :: cs).getLast?, isBlank d = false :=
    ⟨_, List.getLast?_eq_some_getLast (List.cons_ne_nil c cs),
      not_isBlank hp (hcs _ (List.getLast_mem _))⟩
  cases h with
  | integer hc hcs => exact hclass Char.isDigit rfl _ _ (List.forall_mem_cons.mpr ⟨hc, hcs⟩)
  | @word c _ hc hcs =>
    have hname : isNameChar c = true := by
      rw [isNameChar, Char.isAlphanum, hc]
      rfl
    exact hclass isNameChar rfl _ _ (List.forall_mem_cons.mpr ⟨hname, hcs⟩)
  | @text cs _ =>
    have hlast : ('"' :: cs ++ ['"']).getLast? = some '"' := List.getLast?_concat
    exact ⟨'"', hlast, rfl⟩
  | symbol hsign =>
    refine ⟨_, rfl, ?_⟩
    unfold Symbol.ofChar? at hsign
    split at hsign <;> cases hsign <;> rfl
  | notEqual => exact ⟨'=', rfl, rfl⟩

/-- A token begins and ends next to a character of its own. -/
theorem isBeside_of_lex {source : String} {ls : List Lexeme} (h : lex source = .ok ls)
    {l : Lexeme} (hl : l ∈ ls) :
    IsBeside source.toList l.span.start ∧ IsBeside source.toList l.span.stop := by
  obtain ⟨ps, hps, rfl⟩ := lexFrom_eq_ok_iff.mp h
  obtain ⟨before, c, cs, spelled, rest, hsource, hspelled, hscan, hspan⟩ := hps.exists_scan hl
  rw [hspan, Nat.zero_add]
  constructor
  · have hskip (passed rest : List Char) : scan c cs ≠ .skip passed rest := by
      rw [hscan]
      exact Scan.noConfusion
    exact ⟨before, c :: cs, hsource, rfl, .inr ⟨c, rfl, isBlank_eq_false_of_scan hskip⟩⟩
  · obtain ⟨tail, rfl, -, hfound, -⟩ := scan_token hscan
    obtain ⟨d, hd, hblank⟩ := hfound.exists_getLast?
    refine ⟨before ++ c :: tail, rest, ?_, byteLength_append _ _, .inl ⟨d, ?_, hblank⟩⟩
    · rw [hsource, hspelled, List.append_assoc]
    · rw [List.getLast?_append, Option.mem_def.mp hd]
      rfl

/-- What cannot be read is one character, or a quote and all that follows it. -/
theorem scan_stuck {c : Char} {cs snippet : List Char} (h : scan c cs = .stuck snippet) :
    snippet = [c] ∨ snippet = c :: cs := by
  unfold scan scanSymbol at h
  split at h
  · cases h
  split at h
  · cases h
  split at h
  · cases h
  split at h
  · split at h <;> cases h
    exact .inr rfl
  split at h
  · cases h
  split at h
  · cases h
  split at h <;> cases h
  exact .inl rfl

end Lexer

/-! ## Labels of failures -/

/-- A span that goes from token to token holds whole characters and starts at one that is not
blank. -/
theorem marks_of_onTokens {source : String} {ls : List Lexeme} (hlex : lex source = .ok ls)
    {s : Span} (hle : s.start ≤ s.stop) (h : OnTokens ls s) : s.Marks source.toList := by
  obtain ⟨⟨first, hfirst, hstart⟩, ⟨last, hlast, hstop⟩⟩ := h
  have hbegin := (Lexer.isBeside_of_lex hlex hfirst).1
  have hend := (Lexer.isBeside_of_lex hlex hlast).2
  rw [hstart] at hbegin
  rw [hstop] at hend
  exact ⟨.of_isBoundary hle hbegin.isBoundary hend.isBoundary, hbegin⟩

/-- The unreadable snippet of a source. -/
theorem LexError.marks {source : String} {e : LexError} (h : lex source = .error e) :
    ∀ label ∈ e.diagnostic.labels, label.span.Marks source.toList := by
  obtain ⟨ps, c, cs, hsource, -, hscan, hposition⟩ := Lexer.exists_of_lexFrom_error h
  rw [Nat.zero_add] at hposition
  have hskip (passed rest : List Char) : Lexer.scan c cs ≠ .skip passed rest := by
    rw [hscan]
    exact Lexer.Scan.noConfusion
  have hblank := Lexer.isBlank_eq_false_of_scan hskip
  have hbegin : IsBeside source.toList e.position :=
    ⟨_, c :: cs, hsource, hposition.symm, .inr ⟨c, rfl, hblank⟩⟩
  obtain ⟨rest, hrest, hpos⟩ : ∃ rest, c :: cs = e.snippet ++ rest ∧ 1 ≤ byteLength e.snippet := by
    have hsize := c.utf8Size_pos
    rcases Lexer.scan_stuck hscan with hsnippet | hsnippet
    · exact ⟨cs, by rw [hsnippet]; rfl, by rw [hsnippet, byteLength_cons]; omega⟩
    · exact ⟨[], by rw [hsnippet, List.append_nil], by rw [hsnippet, byteLength_cons]; omega⟩
  refine List.forall_mem_singleton.mpr ⟨.of_isBoundary ?_ hbegin.isBoundary ?_, hbegin⟩
  · exact Nat.le_add_right _ _
  · refine ⟨Lexer.Part.texts ps ++ e.snippet, rest, ?_, ?_⟩
    · rw [hsource, hrest, List.append_assoc]
    · rw [byteLength_append, ← hposition]
      show _ = e.position + max (byteLength e.snippet) 1
      rw [Nat.max_eq_left hpos]

/-- The error of a parser lies next to a character that is not blank. -/
theorem Parser.IsAt.marks {source : String} {ls : List Lexeme} (hlex : lex source = .ok ls)
    {e : ParseError} (h : IsAt ls e) : e.span.Marks source.toList := by
  have hproper := (accounted_of_lex hlex).start_lt_stop
  rcases h with ⟨l, hl, hspan⟩ | ⟨-, l, hl, hspan⟩
  · have hmem := List.mem_of_getElem? hl
    rw [hspan]
    exact marks_of_onTokens hlex (Nat.le_of_lt (hproper l hmem)) ⟨⟨l, hmem, rfl⟩, ⟨l, hmem, rfl⟩⟩
  · have hend := (Lexer.isBeside_of_lex hlex (List.mem_of_getLast? hl)).2
    rw [hspan]
    exact ⟨.of_isBoundary (Nat.le_refl _) hend.isBoundary hend.isBoundary, hend⟩

/-- The errors of a program that cannot be parsed, the first of which gets the primary label. -/
theorem ParseError.marks {source : String} {ls : List Lexeme} (hlex : lex source = .ok ls)
    {errors : List ParseError} (h : parse ls = .error errors) :
    ∀ label ∈ (ParseError.diagnostic errors).labels, label.span.Marks source.toList := by
  obtain ⟨n, last, hturns, -, -, herrors⟩ := Parser.exists_turns (Parser.Reader.orderly_start ls)
  have hat : ∀ e ∈ errors, e.span.Marks source.toList := by
    have hlast := (hturns.orderly (Parser.Reader.orderly_start ls)).isAt
    have hall : errors = last.errors := by
      rw [herrors]
      unfold parse at h
      split at h
      · cases h
      · next hstmts =>
        cases h
        exact (congrArg Prod.snd hstmts).symm
    rw [hall]
    exact fun e he => (hlast e he).marks hlex
  cases errors with
  | nil => exact List.forall_mem_nil _
  | cons first others =>
    obtain ⟨hfirst, hothers⟩ := List.forall_mem_cons.mp hat
    refine List.forall_mem_cons.mpr ⟨hfirst, ?_⟩
    rw [List.forall_mem_map]
    exact hothers

/-- The line of a text in which an offset lies. What is quoted of it ends before its carriage
returns, and the offset lies in the quoted part or at its end. -/
structure LineAt (text : List Char) (offset : Nat) where
  /-- What stands before the line. -/
  before : List Char
  /-- What is quoted of the line before the offset. -/
  left : List Char
  /-- What is quoted of the line behind the offset. -/
  right : List Char
  /-- The carriage returns at the end of the line. -/
  returns : List Char
  /-- What stands behind the line. -/
  after : List Char
  text_eq : text = before ++ (left ++ right ++ returns ++ after)
  offset_eq : offset = byteLength before + byteLength left
  begins : Lines.BeginsLine before
  newline_not_mem : '\n' ∉ left ++ right ++ returns
  ends : Lines.EndsLine after
  eq_of_mem_returns : ∀ c ∈ returns, c = '\r'
  ne_of_mem_getLast? : ∀ c ∈ (left ++ right).getLast?, c ≠ '\r'

namespace LineAt

variable {text : List Char} {offset : Nat}

/-- What is quoted of the line. -/
def line (p : LineAt text offset) : List Char :=
  p.left ++ p.right

/-- The number of the line, counted from one. -/
def number (p : LineAt text offset) : Nat :=
  p.before.count '\n' + 1

/-- The number of bytes of the line before the offset. -/
def indent (p : LineAt text offset) : Nat :=
  byteLength p.left

/-- An offset is looked up as the number of its line and its place in this line. -/
theorem lookup_eq (p : LineAt text offset) :
    Lines.lookup text offset = ⟨p.number, p.indent + 1⟩ := by
  obtain ⟨before, left, right, returns, after, rfl, rfl, hbegins, hnewline, -, -, -⟩ := p
  have hleft : '\n' ∉ left := fun hmem =>
    hnewline (List.mem_append_left _ (List.mem_append_left _ hmem))
  simp only [List.append_assoc]
  exact Lines.lookup_of_line hbegins hleft _

/-- The text of a line that is asked for by its number is what is quoted of it. -/
theorem lineText_eq (p : LineAt text offset) : Lines.lineText text p.number = p.line := by
  obtain ⟨before, left, right, returns, after, rfl, -, hbegins, hnewline, hends, hreturns, hlast⟩ :=
    p
  refine (Lines.lineText_of_line hbegins hnewline hends).trans ?_
  have hdrop : (left ++ right ++ returns).reverse.dropWhile (· = '\r') =
      (left ++ right).reverse := by
    rw [List.reverse_append]
    refine (Lexer.takeWhile_append_of_head? ?_ ?_).2
    · intro c hc
      exact decide_eq_true (hreturns c (List.mem_reverse.mp hc))
    · intro c hc
      rw [List.head?_reverse] at hc
      exact decide_eq_false (hlast c hc)
  rw [Lines.trimEnd, hdrop, List.reverse_reverse]
  rfl

end LineAt

namespace Terminal

end Terminal

end Duet
