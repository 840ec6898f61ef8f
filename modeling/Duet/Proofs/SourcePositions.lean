import Duet.Proofs.TextPositions
import Mathlib.Data.Prod.Lex

/-!
# Positions are exact

`Lines.lookup` searches the starts of lines for the last one that is not behind an offset, and
`Lines.lineText` splits the text at its newlines. Here both are held against the bytes of the source
and against the newlines around a line, for every offset: inside a character, on a newline and beyond
the end.

* `newlinesBelow`: the newlines below an offset, counted in the bytes of the source.
* `NumberedLine`: the line with a number, by what stands before and behind it. There is one for each
  number from one up to one more than the newlines (`nonempty_numberedLine`), and only one.
* `NumberedLine.Holds`: the offset lies on the line. Every offset lies on some line
  (`exists_holds`), which gives its position (`NumberedLine.Holds.lookup_eq`).
* `positions_exact`: positions tell offsets, in their order, and lines are quoted without what ends
  them.
-/

namespace Duet

/-! ## Newlines among bytes -/

/-- The number of newlines of a source at byte positions below an offset. -/
def newlinesBelow (source : String) (offset : Nat) : Nat :=
  (source.toUTF8.data.toList.take offset).count 0x0a

/-- The bytes of a text in UTF-8. -/
def bytes (text : List Char) : List UInt8 :=
  text.flatMap String.utf8EncodeChar

/-- The bytes of a source are those of its characters. -/
theorem bytes_toList (source : String) : bytes source.toList = source.toUTF8.data.toList := by
  rw [String.toUTF8_eq_toByteArray, ← String.utf8Encode_toList, List.utf8Encode,
    List.data_toByteArray]
  rfl

@[simp] theorem bytes_cons (c : Char) (cs : List Char) :
    bytes (c :: cs) = String.utf8EncodeChar c ++ bytes cs :=
  List.flatMap_cons

@[simp] theorem bytes_append (a b : List Char) : bytes (a ++ b) = bytes a ++ bytes b :=
  List.flatMap_append

/-- A text has as many bytes as its byte length says. -/
theorem length_bytes (text : List Char) : (bytes text).length = byteLength text := by
  induction text with
  | nil => rfl
  | cons c cs ih =>
    rw [bytes_cons, List.length_append, String.length_utf8EncodeChar, ih, byteLength_cons]

/-- A byte with its highest bit set is no newline. -/
theorem newline_ne_or {b : UInt8} (hb : b.toNat.testBit 7 = true) (x : UInt8) :
    0x0a ≠ x ||| b := by
  intro h
  have hbit := congrArg (fun y : UInt8 => y.toNat.testBit 7) h
  simp only [UInt8.toNat_or, Nat.testBit_or, hb, Bool.or_true] at hbit
  exact absurd hbit (by decide)

/-- No other character has the byte of a newline in it: those of one byte are that byte, and all
bytes of the others have their highest bit set. -/
theorem newline_not_mem_utf8EncodeChar {c : Char} (hc : c ≠ '\n') :
    0x0a ∉ String.utf8EncodeChar c := by
  have hsize : c.utf8Size = 1 ∨ c.utf8Size = 2 ∨ c.utf8Size = 3 ∨ c.utf8Size = 4 := by
    have hpos := c.utf8Size_pos
    have hle := c.utf8Size_le_four
    omega
  rcases hsize with hsize | hsize | hsize | hsize
  · rw [String.utf8EncodeChar_eq_singleton hsize, List.mem_singleton]
    intro hbyte
    have hval : c.val.toNat ≤ 127 := UInt32.le_iff_toNat_le.mp (Char.utf8Size_eq_one_iff.mp hsize)
    have hbyte : 10 = c.val.toNat % 256 := congrArg UInt8.toNat hbyte
    refine hc (Char.ext (UInt32.toNat_inj.mp ?_))
    show c.val.toNat = 10
    omega
  · rw [String.utf8EncodeChar_eq_cons_cons hsize]
    simp only [List.mem_cons, List.not_mem_nil, or_false, not_or]
    exact ⟨newline_ne_or rfl _, newline_ne_or rfl _⟩
  · rw [String.utf8EncodeChar_eq_cons_cons_cons hsize]
    simp only [List.mem_cons, List.not_mem_nil, or_false, not_or]
    exact ⟨newline_ne_or rfl _, newline_ne_or rfl _, newline_ne_or rfl _⟩
  · rw [String.utf8EncodeChar_eq_cons_cons_cons_cons hsize]
    simp only [List.mem_cons, List.not_mem_nil, or_false, not_or]
    exact ⟨newline_ne_or rfl _, newline_ne_or rfl _, newline_ne_or rfl _, newline_ne_or rfl _⟩

/-- The newlines among the bytes are those among the characters. -/
theorem count_bytes (text : List Char) : (bytes text).count 0x0a = text.count '\n' := by
  induction text with
  | nil => rfl
  | cons c cs ih =>
    rw [bytes_cons, List.count_append, ih]
    by_cases hc : c = '\n'
    · have hbytes : String.utf8EncodeChar '\n' = [0x0a] := by decide
      rw [hc, hbytes, List.count_singleton_self, List.count_cons_self, Nat.add_comm]
    · rw [List.count_eq_zero_of_not_mem (newline_not_mem_utf8EncodeChar hc),
        List.count_cons_of_ne hc, Nat.zero_add]

/-- A position for comparison, by its line and then by its column. -/
def Position.key (p : Position) : Lex (Nat × Nat) :=
  toLex (p.line, p.column)

namespace Lines

/-! ## Lines by their numbers -/

/-- What comes right before the beginning of a line and has no newline in it is empty. -/
theorem eq_nil_of_beginsLine {before more : List Char} (h : BeginsLine (before ++ more))
    (hmore : '\n' ∉ more) : more = [] := by
  cases hlast : more.getLast? with
  | none => exact List.getLast?_eq_none_iff.mp hlast
  | some c =>
    have hc : c = '\n' := h c (by rw [List.getLast?_append, hlast]; rfl)
    exact absurd (hc ▸ List.mem_of_getLast? hlast) hmore

/-- What begins a line still does so behind a whole line. -/
theorem beginsLine_append {before : List Char} (h : BeginsLine before) (first : List Char) :
    BeginsLine (first ++ '\n' :: before) := by
  intro c hc
  rw [List.getLast?_append, List.getLast?_cons, Option.some_or, Option.mem_some_iff] at hc
  cases hlast : before.getLast? with
  | none =>
    rw [hlast] at hc
    exact hc.symm
  | some d =>
    rw [hlast] at hc
    exact hc ▸ h d hlast

/-- The line of a text with a number, counted from one: what stands between two newlines, or between
a newline and an end of the text. -/
structure NumberedLine (text : List Char) (number : Nat) where
  /-- What stands before the line. -/
  before : List Char
  /-- The line, without the newline that ends it. -/
  line : List Char
  /-- What stands behind the line, from the newline that ends it. -/
  after : List Char
  text_eq : text = before ++ (line ++ after)
  begins : BeginsLine before
  newline_not_mem : '\n' ∉ line
  ends : EndsLine after
  number_eq : number = before.count '\n' + 1

namespace NumberedLine

variable {text : List Char} {m n : Nat}

/-- The offset at which the line starts. -/
def start (l : NumberedLine text n) : Nat :=
  byteLength l.before

/-- The offset of the newline that ends the line, or of the end of the text. -/
def stop (l : NumberedLine text n) : Nat :=
  l.start + byteLength l.line

/-- A later line starts behind the end of an earlier one, which is therefore not the last. -/
theorem stop_lt_start (l : NumberedLine text m) (k : NumberedLine text n) (h : m < n) :
    l.after ≠ [] ∧ l.stop < k.start := by
  obtain ⟨before, line, after, rfl, -, hline, -, rfl⟩ := l
  obtain ⟨before', line', after', htext, -, -, -, rfl⟩ := k
  have hcount : (before ++ line).count '\n' = before.count '\n' := by
    rw [List.count_append, List.count_eq_zero_of_not_mem hline, Nat.add_zero]
  rw [← List.append_assoc] at htext
  obtain ⟨c, more, rfl, hafter⟩ : ∃ c more, before' = before ++ line ++ c :: more ∧
      after = c :: more ++ (line' ++ after') := by
    rcases List.append_eq_append_iff.mp htext with ⟨more, hmore, hafter⟩ | ⟨more, hmore, -⟩
    · cases more with
      | nil =>
        rw [hmore, List.append_nil, hcount] at h
        omega
      | cons c more => exact ⟨c, more, hmore, hafter⟩
    · -- Then there is no newline between the two starts.
      have hle := congrArg (List.count '\n') hmore
      rw [hcount, List.count_append] at hle
      omega
  have hsize := c.utf8Size_pos
  constructor
  · show after ≠ []
    rw [hafter]
    exact List.cons_ne_nil _ _
  · show byteLength before + byteLength line < byteLength (before ++ line ++ c :: more)
    rw [byteLength_append, byteLength_append, byteLength_cons]
    omega

/-- Only one line has a given number. -/
instance : Subsingleton (NumberedLine text n) where
  allEq l k := by
    obtain ⟨before, line, after, rfl, hbegins, hline, hends, rfl⟩ := l
    obtain ⟨before', line', after', htext, hbegins', hline', hends', hcount⟩ := k
    obtain rfl : before = before' := by
      rcases List.append_eq_append_iff.mp htext with ⟨more, hmore, -⟩ | ⟨more, hmore, -⟩
      all_goals
        rw [hmore, List.count_append] at hcount
        have hnone : '\n' ∉ more := List.count_eq_zero.mp (by omega)
      · rw [hmore] at hbegins'
        rw [hmore, eq_nil_of_beginsLine hbegins' hnone, List.append_nil]
      · rw [hmore] at hbegins
        rw [hmore, eq_nil_of_beginsLine hbegins hnone, List.append_nil]
    have hrest : line ++ after = line' ++ after' := List.append_cancel_left htext
    obtain rfl : line = line' := by
      have hhead := head?_split hline hends
      rw [hrest, head?_split hline' hends', Option.some_inj] at hhead
      exact hhead.symm
    obtain rfl : after = after' := List.append_cancel_left hrest
    rfl

/-- The offset lies on the line: not before its start, and not behind the newline that ends it. -/
structure Holds (l : NumberedLine text n) (offset : Nat) : Prop where
  start_le : l.start ≤ offset
  le_stop : l.after ≠ [] → offset ≤ l.stop

/-- An offset on the line has the number of the line, and its column tells how far it is from the
start. -/
theorem Holds.lookup_eq {l : NumberedLine text n} {offset : Nat} (h : l.Holds offset) :
    lookup text offset = ⟨n, offset - l.start + 1⟩ := by
  obtain ⟨before, line, after, rfl, hbegins, hline, hends, rfl⟩ := l
  have hnext : ∀ start ∈ (startsAfter (byteLength before) (line ++ after)).head?, offset < start := by
    intro start hstart
    rw [startsAfter_append, startsAfter_of_not_mem hline, List.nil_append] at hstart
    cases after with
    | nil => cases hstart
    | cons c after =>
      obtain rfl : c = '\n' := hends c rfl
      have hle := h.le_stop (List.cons_ne_nil _ _)
      have hstart : byteLength before + byteLength line + 1 = start := Option.some.inj hstart
      exact Nat.lt_of_le_of_lt hle (by rw [← hstart]; exact Nat.lt_succ_self _)
  have hlast : (starts before).getLastD 0 = byteLength before := by
    have hlast := @getLastD_starts before [] hbegins List.not_mem_nil
    rwa [List.append_nil] at hlast
  rw [lookup, takeWhile_starts_of_lt h.start_le hnext, hlast, starts, List.length_cons,
    length_startsAfter]
  rfl

/-- The newlines below an offset on the line are those before the line. -/
theorem Holds.newlinesBelow_eq {source : String} {l : NumberedLine source.toList n} {offset : Nat}
    (h : l.Holds offset) : newlinesBelow source offset + 1 = n := by
  have hstart : (bytes l.before).length ≤ offset := by
    rw [length_bytes]
    exact h.start_le
  have hline : 0x0a ∉ bytes l.line := by
    rw [← List.count_eq_zero, count_bytes]
    exact List.count_eq_zero_of_not_mem l.newline_not_mem
  have hrest : 0x0a ∉ (bytes (l.line ++ l.after)).take (offset - (bytes l.before).length) := by
    intro hmem
    by_cases hafter : l.after = []
    · rw [hafter, List.append_nil] at hmem
      exact hline (List.mem_of_mem_take hmem)
    · have hstop : offset ≤ byteLength l.before + byteLength l.line := h.le_stop hafter
      rw [bytes_append, List.take_append_of_le_length (by rw [length_bytes, length_bytes]; omega)]
        at hmem
      exact hline (List.mem_of_mem_take hmem)
  rw [newlinesBelow, ← bytes_toList, l.text_eq, bytes_append, List.take_append,
    List.take_of_length_le hstart, List.count_append, List.count_eq_zero_of_not_mem hrest,
    count_bytes, Nat.add_zero, ← l.number_eq]

end NumberedLine

/-- The characters that lie below an offset as a whole. -/
theorem exists_append_of_offset (text : List Char) (offset : Nat) :
    ∃ a b, text = a ++ b ∧ byteLength a ≤ offset ∧
      ∀ c ∈ b.head?, offset < byteLength a + c.utf8Size := by
  induction text generalizing offset with
  | nil => exact ⟨[], [], rfl, Nat.zero_le _, nofun⟩
  | cons c text ih =>
    by_cases hc : offset < c.utf8Size
    · refine ⟨[], c :: text, rfl, Nat.zero_le _, ?_⟩
      intro d hd
      obtain rfl := Option.mem_some_iff.mp hd
      rwa [byteLength_nil, Nat.zero_add]
    · obtain ⟨a, b, rfl, hle, hlt⟩ := ih (offset - c.utf8Size)
      refine ⟨c :: a, b, rfl, ?_, ?_⟩
      · rw [byteLength_cons]
        omega
      · intro d hd
        have hd := hlt d hd
        rw [byteLength_cons]
        omega

/-- Every offset lies on a line, also one inside a character or beyond the end. -/
theorem exists_holds (text : List Char) (offset : Nat) :
    ∃ number, ∃ l : NumberedLine text number, l.Holds offset := by
  obtain ⟨a, b, rfl, hle, hlt⟩ := exists_append_of_offset text offset
  obtain ⟨before, pre, rfl, hbegins, hpre⟩ := exists_beginsLine a
  obtain ⟨post, after, rfl, hends, hpost⟩ := exists_endsLine b
  have hline : '\n' ∉ pre ++ post := fun hmem => (List.mem_append.mp hmem).elim hpre hpost
  have htext : before ++ pre ++ (post ++ after) = before ++ (pre ++ post ++ after) := by
    simp only [List.append_assoc]
  rw [byteLength_append] at hle hlt
  refine ⟨_, ⟨before, pre ++ post, after, htext, hbegins, hline, hends, rfl⟩, ?_, ?_⟩
  · exact Nat.le_trans (Nat.le_add_right _ _) hle
  · intro hafter
    show offset ≤ byteLength before + byteLength (pre ++ post)
    rw [byteLength_append]
    cases post with
    | nil =>
      -- The next character is the newline, and it has one byte only.
      obtain ⟨c, after, rfl⟩ := List.exists_cons_of_ne_nil hafter
      have hlt := hlt c rfl
      rw [hends c rfl] at hlt
      exact Nat.le_of_lt_succ hlt
    | cons c post =>
      have hlt := hlt c rfl
      rw [byteLength_cons]
      omega

/-- The lines are numbered from one up to one more than the newlines of the text. -/
theorem nonempty_numberedLine {text : List Char} {number : Nat} (hpos : 0 < number)
    (hle : number ≤ text.count '\n' + 1) : Nonempty (NumberedLine text number) := by
  induction number generalizing text with
  | zero => cases hpos
  | succ n ih =>
    cases n with
    | zero =>
      obtain ⟨line, after, rfl, hends, hline⟩ := exists_endsLine text
      exact ⟨⟨[], line, after, rfl, nofun, hline, hends, rfl⟩⟩
    | succ n =>
      have hmem : '\n' ∈ text := List.count_pos_iff.mp (by omega)
      obtain ⟨first, rest, rfl, hfirst⟩ := List.eq_append_cons_of_mem hmem
      rw [List.count_append, List.count_eq_zero_of_not_mem hfirst, List.count_cons_self] at hle
      obtain ⟨before, line, after, rfl, hbegins, hline, hends, hnumber⟩ :=
        @ih rest (Nat.succ_pos n) (by omega)
      refine ⟨⟨first ++ '\n' :: before, line, after, ?_, ?_, hline, hends, ?_⟩⟩
      · rw [List.append_assoc, List.cons_append]
      · exact beginsLine_append hbegins first
      · rw [hnumber, List.count_append, List.count_eq_zero_of_not_mem hfirst, List.count_cons_self,
          Nat.zero_add]

/-! ## The order of positions -/

/-- Offsets that grow have positions that grow: a later line, or a later column of the same. -/
theorem strictMono_lookup (text : List Char) : StrictMono (Position.key ∘ lookup text) := by
  intro offset later hlt
  obtain ⟨m, l, hl⟩ := exists_holds text offset
  obtain ⟨n, k, hk⟩ := exists_holds text later
  rw [Function.comp_apply, Function.comp_apply, hl.lookup_eq, hk.lookup_eq, Position.key,
    Position.key, Prod.Lex.toLex_lt_toLex]
  have hstart := hl.start_le
  rcases Nat.lt_trichotomy m n with hmn | rfl | hnm
  · exact .inl hmn
  · obtain rfl := Subsingleton.elim l k
    refine .inr ⟨rfl, ?_⟩
    show offset - l.start + 1 < later - l.start + 1
    omega
  · -- The line of the later offset would have ended before the earlier one.
    obtain ⟨hafter, hstop⟩ := k.stop_lt_start l hnm
    have hle := hk.le_stop hafter
    omega

/-! ## Quoted lines -/

/-- The line without the carriage returns at its end. -/
def IsTrimmed (line trimmed : List Char) : Prop :=
  (∃ n, line = trimmed ++ List.replicate n '\r') ∧ trimmed.getLast? ≠ some '\r'

/-- A line without its carriage returns is what is left of it. -/
theorem isTrimmed_trimEnd (line : List Char) : IsTrimmed line (trimEnd line) := by
  obtain ⟨returns, hline, hreturns, hlast⟩ := exists_trimEnd line
  refine ⟨⟨returns.length, ?_⟩, fun hreturn => hlast '\r' hreturn rfl⟩
  rw [← List.eq_replicate_iff.mpr ⟨rfl, hreturns⟩]
  exact hline

/-- The text of a line is the line without its carriage returns. -/
theorem NumberedLine.lineText_eq {text : List Char} {number : Nat}
    (l : NumberedLine text number) : lineText text number = trimEnd l.line := by
  obtain ⟨before, line, after, rfl, hbegins, hline, hends, rfl⟩ := l
  exact lineText_of_line hbegins hline hends

/-- There is no text at a number that no line has. -/
theorem lineText_eq_nil {text : List Char} {number : Nat}
    (h : number = 0 ∨ text.count '\n' + 1 < number) : lineText text number = [] := by
  cases number with
  | zero => rfl
  | succ i =>
    have hnone : (split text)[i]? = none := by
      rw [List.getElem?_eq_none_iff, length_split]
      omega
    rw [lineText, hnone]
    rfl

/-- **Positions are exact.** The line of an offset is one more than the newlines below it, and the
offset is the start of that line and the bytes that its column counts; this holds inside a character,
on a newline and beyond the end of the source. So a position tells its offset, and positions are
ordered as offsets are, by line and then by column. The text of a line is what stands between the
newlines around it, without the carriage returns at its end; it is empty if no line has the
number. -/
theorem positions_exact (source : String) :
    (∀ offset,
      (lookup source.toList offset).line = newlinesBelow source offset + 1 ∧
        0 < (lookup source.toList offset).column ∧
        ∃ l : NumberedLine source.toList (lookup source.toList offset).line,
          l.start + ((lookup source.toList offset).column - 1) = offset) ∧
      Function.Injective (lookup source.toList) ∧
      StrictMono (Position.key ∘ lookup source.toList) ∧
      ∀ number,
        (∃ l : NumberedLine source.toList number,
          IsTrimmed l.line (lineText source.toList number)) ∨
        (number = 0 ∨ source.toList.count '\n' + 1 < number) ∧
          lineText source.toList number = [] := by
  have hmono := strictMono_lookup source.toList
  refine ⟨?_, Function.Injective.of_comp hmono.injective, hmono, ?_⟩
  · intro offset
    obtain ⟨n, l, hl⟩ := exists_holds source.toList offset
    rw [hl.lookup_eq]
    refine ⟨hl.newlinesBelow_eq.symm, Nat.succ_pos _, l, ?_⟩
    exact Nat.add_sub_of_le hl.start_le
  · intro number
    by_cases hnumber : number = 0 ∨ source.toList.count '\n' + 1 < number
    · exact .inr ⟨hnumber, lineText_eq_nil hnumber⟩
    · rw [not_or, Nat.not_lt] at hnumber
      obtain ⟨l⟩ := nonempty_numberedLine (Nat.pos_of_ne_zero hnumber.1) hnumber.2
      refine .inl ⟨l, ?_⟩
      rw [l.lineText_eq]
      exact isTrimmed_trimEnd l.line

example : [1, 3, 4, 9].map (lookup "é\r\nx".toList) = [⟨1, 2⟩, ⟨1, 4⟩, ⟨2, 1⟩, ⟨2, 6⟩] := by decide

end Lines

end Duet
