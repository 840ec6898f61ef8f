import Duet.Text.Lines
import Mathlib.Data.List.Induction
import Mathlib.Data.List.TakeWhile

/-!
# Where a place of a text lies

A place between two characters of a text is given by what stands before it and what stands behind.
`Lines.lookup` finds its line and column from the offsets of newlines, and `Lines.lineText` finds the
text of a line by splitting at newlines. This file describes both by the characters around the place.

* `lookup_append`: the line is told by the newlines before the place.
* `exists_beginsLine`, `exists_endsLine`: every place lies in a line, and `lookup_of_line` and
  `lineText_of_line` are the column and the text to find there.
* `exists_trimEnd`: what is left of a line without its carriage returns.
-/

namespace Duet.Lines

/-! ## Starts of lines -/

/-- The lines that start in a text in two parts are those of both. -/
theorem startsAfter_append (offset : Nat) (a b : List Char) :
    startsAfter offset (a ++ b) = startsAfter offset a ++ startsAfter (offset + byteLength a) b := by
  induction a generalizing offset with
  | nil => rfl
  | cons c a ih =>
    rw [List.cons_append, startsAfter, startsAfter, ih, byteLength_cons, Nat.add_assoc]
    split <;> rfl

/-- No line starts behind characters without a newline. -/
theorem startsAfter_of_not_mem {offset : Nat} {a : List Char} (h : '\n' ∉ a) :
    startsAfter offset a = [] := by
  induction a generalizing offset with
  | nil => rfl
  | cons c a ih =>
    rw [List.mem_cons, not_or] at h
    rw [startsAfter, if_neg (Ne.symm h.1), ih h.2]

/-- A line starts behind every newline. -/
theorem length_startsAfter (offset : Nat) (a : List Char) :
    (startsAfter offset a).length = a.count '\n' := by
  induction a generalizing offset with
  | nil => rfl
  | cons c a ih =>
    rw [startsAfter]
    by_cases hc : c = '\n'
    · rw [if_pos hc, List.length_cons, ih, hc, List.count_cons_self]
    · rw [if_neg hc, ih, List.count_cons_of_ne hc]

/-- A line starts behind the newline before it, and so behind the start of the text. -/
theorem lt_of_mem_startsAfter {offset start : Nat} {a : List Char}
    (h : start ∈ startsAfter offset a) : offset < start ∧ start ≤ offset + byteLength a := by
  induction a generalizing offset with
  | nil => cases h
  | cons c a ih =>
    have hsize := c.utf8Size_pos
    rw [byteLength_cons]
    rw [startsAfter] at h
    by_cases hc : c = '\n'
    · rw [if_pos hc, List.mem_cons] at h
      rcases h with rfl | h
      · omega
      · have := ih h
        omega
    · rw [if_neg hc] at h
      have := ih h
      omega

/-- The lines that start no later than an offset are those of the text up to a place before it, if
the next line starts behind the offset. -/
theorem takeWhile_starts_of_lt {a b : List Char} {offset : Nat} (hle : byteLength a ≤ offset)
    (hlt : ∀ start ∈ (startsAfter (byteLength a) b).head?, offset < start) :
    (starts (a ++ b)).takeWhile (· ≤ offset) = starts a := by
  have hbefore : ∀ start ∈ starts a, decide (start ≤ offset) = true := by
    intro start hstart
    rcases List.mem_cons.mp hstart with rfl | hstart
    · exact decide_eq_true (Nat.zero_le _)
    · have hstart := (lt_of_mem_startsAfter hstart).2
      exact decide_eq_true (by omega)
  have hbehind : (startsAfter (byteLength a) b).takeWhile (· ≤ offset) = [] := by
    cases hb : startsAfter (byteLength a) b with
    | nil => rfl
    | cons start rest =>
      have hstart : offset < start := hlt start (by rw [hb]; rfl)
      refine List.takeWhile_cons_of_neg ?_
      rw [decide_eq_true_iff]
      omega
  have hsplit : starts (a ++ b) = starts a ++ startsAfter (byteLength a) b := by
    rw [starts, startsAfter_append, Nat.zero_add]
    rfl
  rw [hsplit, List.takeWhile_append_of_pos hbefore, hbehind, List.append_nil]

/-- The lines that start no later than a place are those that start before it. -/
theorem takeWhile_starts (a b : List Char) :
    (starts (a ++ b)).takeWhile (· ≤ byteLength a) = starts a :=
  takeWhile_starts_of_lt (Nat.le_refl _) fun _ hstart =>
    (lt_of_mem_startsAfter (List.mem_of_mem_head? hstart)).1

/-- The position of a place counts the newlines before it, and the bytes since the last line
start. -/
theorem lookup_append (a b : List Char) :
    lookup (a ++ b) (byteLength a) =
      ⟨a.count '\n' + 1, byteLength a - (starts a).getLastD 0 + 1⟩ := by
  rw [lookup, takeWhile_starts, starts, List.length_cons, length_startsAfter]

/-! ## The line of a place -/

/-- A line begins behind these characters. -/
def BeginsLine (before : List Char) : Prop :=
  ∀ c ∈ before.getLast?, c = '\n'

/-- A line ends in front of these characters. -/
def EndsLine (after : List Char) : Prop :=
  ∀ c ∈ after.head?, c = '\n'

/-- Characters up to a place end with a part of a line. -/
theorem exists_beginsLine (a : List Char) :
    ∃ before pre, a = before ++ pre ∧ BeginsLine before ∧ '\n' ∉ pre := by
  induction a using List.reverseRecOn with
  | nil => exact ⟨[], [], rfl, nofun, List.not_mem_nil⟩
  | append_singleton a c ih =>
    obtain ⟨before, pre, rfl, hbefore, hpre⟩ := ih
    by_cases hc : c = '\n'
    · refine ⟨before ++ pre ++ [c], [], (List.append_nil _).symm, ?_, List.not_mem_nil⟩
      intro d hd
      rw [List.getLast?_concat, Option.mem_some_iff] at hd
      exact hd ▸ hc
    · refine ⟨before, pre ++ [c], List.append_assoc _ _ _, hbefore, ?_⟩
      rw [List.mem_append, List.mem_singleton, not_or]
      exact ⟨hpre, Ne.symm hc⟩

/-- Characters behind a place begin with a part of a line. -/
theorem exists_endsLine (b : List Char) :
    ∃ post after, b = post ++ after ∧ EndsLine after ∧ '\n' ∉ post := by
  induction b with
  | nil => exact ⟨[], [], rfl, nofun, List.not_mem_nil⟩
  | cons c b ih =>
    by_cases hc : c = '\n'
    · refine ⟨[], c :: b, rfl, ?_, List.not_mem_nil⟩
      intro d hd
      exact (Option.mem_some_iff.mp hd) ▸ hc
    · obtain ⟨post, after, rfl, hafter, hpost⟩ := ih
      refine ⟨c :: post, after, rfl, hafter, ?_⟩
      rw [List.mem_cons, not_or]
      exact ⟨Ne.symm hc, hpost⟩

/-- The last line start before a place is where its line begins. -/
theorem getLastD_starts {before pre : List Char} (hbefore : BeginsLine before)
    (hpre : '\n' ∉ pre) : (starts (before ++ pre)).getLastD 0 = byteLength before := by
  rw [starts, startsAfter_append, startsAfter_of_not_mem hpre, List.append_nil]
  induction before using List.reverseRecOn with
  | nil => rfl
  | append_singleton init c =>
    obtain rfl : c = '\n' := hbefore c List.getLast?_concat
    have hlast : startsAfter (0 + byteLength init) ['\n'] = [byteLength (init ++ ['\n'])] := by
      simp [startsAfter]
    rw [startsAfter_append, hlast, ← List.cons_append, List.getLastD_concat]

/-- The position of a place that has the characters `pre` of its line before it. -/
theorem lookup_of_line {before pre : List Char} (hbefore : BeginsLine before) (hpre : '\n' ∉ pre)
    (rest : List Char) :
    lookup (before ++ (pre ++ rest)) (byteLength before + byteLength pre) =
      ⟨before.count '\n' + 1, byteLength pre + 1⟩ := by
  rw [← List.append_assoc, ← byteLength_append, lookup_append, getLastD_starts hbefore hpre,
    List.count_append, List.count_eq_zero_of_not_mem hpre, byteLength_append, Nat.add_zero,
    Nat.add_sub_cancel_left]

/-! ## The text of a line -/

/-- There is always a first line. -/
theorem exists_split_eq_cons (a : List Char) : ∃ line rest, split a = line :: rest := by
  cases a with
  | nil => exact ⟨[], [], rfl⟩
  | cons c a =>
    rw [split]
    split
    · exact ⟨_, _, rfl⟩
    · split <;> exact ⟨_, _, rfl⟩

/-- A newline splits a text into the lines before it and those behind it. -/
theorem split_newline (a b : List Char) : split (a ++ '\n' :: b) = split a ++ split b := by
  induction a with
  | nil => rfl
  | cons c a ih =>
    obtain ⟨line, rest, hsplit⟩ := exists_split_eq_cons a
    rw [List.cons_append, split, ih, split, hsplit]
    split <;> rfl

/-- There is one line more than there are newlines. -/
theorem length_split (a : List Char) : (split a).length = a.count '\n' + 1 := by
  induction a with
  | nil => rfl
  | cons c a ih =>
    rw [split]
    by_cases hc : c = '\n'
    · rw [if_pos hc, List.length_cons, ih, hc, List.count_cons_self]
    · obtain ⟨line, rest, hsplit⟩ := exists_split_eq_cons a
      rw [if_neg hc, List.count_cons_of_ne hc, ← ih, hsplit]
      rfl

/-- The first line of a text. -/
theorem head?_split {line after : List Char} (hline : '\n' ∉ line) (hafter : EndsLine after) :
    (split (line ++ after)).head? = some line := by
  induction line with
  | nil =>
    cases after with
    | nil => rfl
    | cons c after =>
      obtain rfl : c = '\n' := hafter c rfl
      rfl
  | cons c line ih =>
    rw [List.mem_cons, not_or] at hline
    obtain ⟨rest, hrest⟩ := List.head?_eq_some_iff.mp (ih hline.2)
    rw [List.cons_append, split, if_neg (Ne.symm hline.1), hrest]
    rfl

/-- The line that begins behind `before` is the one after its newlines. -/
theorem getElem?_split {before : List Char} (hbefore : BeginsLine before) (rest : List Char) :
    (split (before ++ rest))[before.count '\n']? = (split rest).head? := by
  induction before using List.reverseRecOn with
  | nil => exact List.head?_eq_getElem?.symm
  | append_singleton init c =>
    obtain rfl : c = '\n' := hbefore c List.getLast?_concat
    rw [List.append_assoc, List.singleton_append, split_newline, List.count_append,
      List.count_singleton_self, ← length_split, List.getElem?_append_right (Nat.le_refl _),
      Nat.sub_self, List.head?_eq_getElem?]

/-- The text of a line is found by the number of newlines before it. -/
theorem lineText_of_line {before line after : List Char} (hbefore : BeginsLine before)
    (hline : '\n' ∉ line) (hafter : EndsLine after) :
    lineText (before ++ (line ++ after)) (before.count '\n' + 1) = trimEnd line := by
  rw [lineText, getElem?_split hbefore, head?_split hline hafter, Option.getD_some]

/-- A line is its trimmed text and carriage returns. -/
theorem exists_trimEnd (line : List Char) :
    ∃ returns, line = trimEnd line ++ returns ∧ (∀ c ∈ returns, c = '\r') ∧
      ∀ c ∈ (trimEnd line).getLast?, c ≠ '\r' := by
  refine ⟨(line.reverse.takeWhile (· = '\r')).reverse, ?_, ?_, ?_⟩
  · rw [trimEnd, ← List.reverse_append, List.takeWhile_append_dropWhile, List.reverse_reverse]
  · intro c hc
    simpa using List.mem_takeWhile_imp (List.mem_reverse.mp hc)
  · intro c hc
    rw [trimEnd, List.getLast?_reverse] at hc
    have hnot := List.head?_dropWhile_not (· = '\r') line.reverse
    rw [Option.mem_def.mp hc] at hnot
    simpa using hnot

end Duet.Lines
