import Duet.Proofs.CommentStripping
import Duet.Proofs.TextPositions

/-!
# Lines survive the removal of comments

`Comment.strip` goes through a text and replaces comments by their newlines. This file says which
comments these are, without the function: reading from the left, a comment is wherever one opens and
is closed at all, and it reaches to the first `*/` behind its opening (`Divides`). What is deleted
from the text are the characters of these comments that are no newlines, and so a character that is
left stands on the line where it stood before (`strip_keeps_lines`).

A text with its deletions is a list of marked characters: those marked `true` are left. Such a list
is a map between the offsets of the two texts, for a beginning of the list is a beginning of both.
-/

namespace Duet.Comment

/-! ## Comments in a text -/

/-- There is no `*/` before the end of a comment with this body. -/
def ClosesLate (body : List Char) : Prop :=
  ¬['*', '/'] <:+: body ++ ['*']

/-- An empty comment is not closed before its end. -/
theorem ClosesLate.nil : ClosesLate [] := by
  rintro ⟨front, back, h⟩
  have hlength := congrArg List.length h
  simp only [List.length_append, List.length_cons, List.length_nil] at hlength
  omega

/-- A body is not closed early exactly if its rest is not, and no `*/` is at its front. -/
theorem closesLate_cons_iff {c : Char} {body : List Char} :
    ClosesLate (c :: body) ↔ ClosesLate body ∧ ¬(c = '*' ∧ body.head? = some '/') := by
  have hfirst : ['*', '/'] <+: c :: (body ++ ['*']) ↔ c = '*' ∧ body.head? = some '/' := by
    cases body with
    | nil => simp
    | cons d body => simp [eq_comm]
  rw [ClosesLate, ClosesLate, List.cons_append, List.infix_cons_iff, not_or, hfirst, and_comm]

/-- The body that is split off is not closed before its end. -/
theorem closesLate_of_splitAtClose {cs body rest : List Char}
    (h : splitAtClose cs = some (body, rest)) : ClosesLate body := by
  fun_induction splitAtClose cs generalizing body with
  | case1 tail =>
    obtain ⟨rfl, -⟩ := Prod.mk.inj (Option.some.inj h)
    exact .nil
  | case2 c cs hopen inner tail hinner ih =>
    obtain ⟨rfl, rfl⟩ := Prod.mk.inj (Option.some.inj h)
    refine closesLate_cons_iff.mpr ⟨ih hinner, ?_⟩
    rintro ⟨hc, hhead⟩
    obtain ⟨inner', rfl⟩ := List.head?_eq_some_iff.mp hhead
    rw [eq_of_splitAtClose hinner] at hopen
    exact hopen _ hc rfl
  | case3 => cases h
  | case4 => cases h

/-- A body that is not closed early is split off. -/
theorem splitAtClose_of_closesLate {body : List Char} (h : ClosesLate body) (rest : List Char) :
    splitAtClose (body ++ '*' :: '/' :: rest) = some (body, rest) := by
  induction body with
  | nil => rfl
  | cons c body ih =>
    obtain ⟨hbody, hfirst⟩ := closesLate_cons_iff.mp h
    rw [List.cons_append, splitAtClose]
    · rw [ih hbody]
    · intro tail hc htail
      refine hfirst ⟨hc, ?_⟩
      cases body with
      | nil => simp at htail
      | cons d body =>
        obtain ⟨rfl, -⟩ := List.cons.inj htail
        rfl

/-- Where there is a `*/`, there is a first one. -/
theorem exists_splitAtClose (body rest : List Char) :
    ∃ found, splitAtClose (body ++ '*' :: '/' :: rest) = some found := by
  rw [← Option.isSome_iff_exists]
  by_contra hnone
  have hclosed := splitAtClose_of_closesLate .nil rest
  have hopen : splitAtClose (body ++ '*' :: '/' :: rest) = none := by simpa using hnone
  clear hnone
  induction body with
  | nil =>
    rw [hopen] at hclosed
    cases hclosed
  | cons c body ih =>
    refine ih ?_
    rw [List.cons_append, splitAtClose.eq_def] at hopen
    split at hopen
    · cases hopen
    · next heq =>
      obtain ⟨-, rfl⟩ := List.cons.inj heq
      split at hopen
      · cases hopen
      · next hnone => exact hnone
    · next heq => cases heq

/-- A closed comment stands at the front of the text. -/
def OpensWith (text : List Char) : Prop :=
  ∃ body rest, text = '/' :: '*' :: (body ++ '*' :: '/' :: rest)

/-- A comment is split off exactly where a closed one stands at the front. -/
theorem split?_eq_some_iff {text body rest : List Char} :
    split? text = some (body, rest) ↔
      text = '/' :: '*' :: (body ++ '*' :: '/' :: rest) ∧ ClosesLate body := by
  constructor
  · intro h
    unfold split? at h
    split at h
    · exact ⟨by rw [eq_of_splitAtClose h], closesLate_of_splitAtClose h⟩
    · cases h
  · rintro ⟨rfl, hbody⟩
    exact splitAtClose_of_closesLate hbody rest

/-- No comment is split off exactly where no closed one stands at the front. -/
theorem split?_eq_none_iff {text : List Char} : split? text = none ↔ ¬OpensWith text := by
  constructor
  · rintro h ⟨body, rest, rfl⟩
    obtain ⟨found, hfound⟩ := exists_splitAtClose body rest
    rw [split?, hfound] at h
    cases h
  · intro h
    rw [Option.eq_none_iff_forall_ne_some]
    rintro ⟨body, rest⟩ hfound
    exact h ⟨body, rest, (split?_eq_some_iff.mp hfound).1⟩

/-- A part of a text: a comment with the given body, or a character that is in none. -/
inductive Segment where
  | char (c : Char)
  | comment (body : List Char)
deriving DecidableEq, Repr

/-- The segments make up the text, and the comments among them are all that there are: reading from
the left, a comment is taken wherever a closed one stands, up to its first `*/`. -/
inductive Divides : List Char → List Segment → Prop
  | nil : Divides [] []
  | comment {body rest : List Char} {segments : List Segment} : ClosesLate body →
      Divides rest segments →
      Divides ('/' :: '*' :: (body ++ '*' :: '/' :: rest)) (.comment body :: segments)
  | char {c : Char} {cs : List Char} {segments : List Segment} : ¬OpensWith (c :: cs) →
      Divides cs segments → Divides (c :: cs) (.char c :: segments)

/-- The segments of a text. -/
def segments (text : List Char) : List Segment :=
  match _h : split? text with
  | some (body, rest) => .comment body :: segments rest
  | none =>
    match text with
    | [] => []
    | c :: cs => .char c :: segments cs
termination_by text.length
decreasing_by
  · exact length_lt_of_split? _h
  · simp

/-- A text is divided into its segments. -/
theorem divides_segments (text : List Char) : Divides text (segments text) := by
  fun_induction segments text with
  | case1 text body rest h ih =>
    obtain ⟨rfl, hbody⟩ := split?_eq_some_iff.mp h
    exact .comment hbody ih
  | case2 => exact .nil
  | case3 c cs h ih => exact .char (split?_eq_none_iff.mp h) ih

/-- There is one division only. -/
theorem Divides.unique {text : List Char} {ss ss' : List Segment} (h : Divides text ss)
    (h' : Divides text ss') : ss = ss' := by
  induction h generalizing ss' with
  | nil =>
    cases h'
    rfl
  | @comment body rest _ hbody _ ih =>
    have hfound := splitAtClose_of_closesLate hbody rest
    generalize htext : '/' :: '*' :: (body ++ '*' :: '/' :: rest) = text at h'
    cases h' with
    | nil => cases htext
    | comment hbody' hrest' =>
      obtain ⟨-, htail⟩ := List.cons.inj htext
      obtain ⟨-, htail⟩ := List.cons.inj htail
      rw [htail, splitAtClose_of_closesLate hbody'] at hfound
      obtain ⟨rfl, rfl⟩ := Prod.mk.inj (Option.some.inj hfound)
      rw [ih hrest']
    | char hnot _ => exact absurd ⟨body, rest, htext.symm⟩ hnot
  | @char c cs _ hnot _ ih =>
    generalize htext : c :: cs = text at h'
    cases h' with
    | nil => cases htext
    | comment _ _ => exact absurd ⟨_, _, htext⟩ hnot
    | char _ hrest' =>
      obtain ⟨rfl, rfl⟩ := List.cons.inj htext
      rw [ih hrest']

/-- A text is divided in one way only. -/
theorem divides_iff {text : List Char} {ss : List Segment} :
    Divides text ss ↔ ss = segments text :=
  ⟨fun h => h.unique (divides_segments text), fun h => h ▸ divides_segments text⟩

/-! ## Deletions -/

/-- A character of a text, and whether it is left. -/
abbrev Marked := Char × Bool

namespace Segment

/-- The characters of a segment. Of a comment only the newlines are left. -/
def marked : Segment → List Marked
  | .char c => [(c, true)]
  | .comment body => ('/' :: '*' :: (body ++ ['*', '/'])).map fun c => (c, c = '\n')

end Segment

/-- The characters of a text, each with whether it is left. -/
def marks (text : List Char) : List Marked :=
  (segments text).flatMap Segment.marked

/-- The text with its deletions undone. -/
def whole (ms : List Marked) : List Char :=
  ms.map Prod.fst

/-- The text that is left. -/
def left (ms : List Marked) : List Char :=
  (ms.filter Prod.snd).map Prod.fst

@[simp] theorem whole_append (ms ns : List Marked) : whole (ms ++ ns) = whole ms ++ whole ns :=
  List.map_append

@[simp] theorem left_append (ms ns : List Marked) : left (ms ++ ns) = left ms ++ left ns := by
  rw [left, List.filter_append, List.map_append]
  rfl

/-- The characters of a comment are its body and both of its ends. -/
theorem whole_marked_comment (body : List Char) :
    whole (Segment.marked (.comment body)) = '/' :: '*' :: (body ++ ['*', '/']) := by
  rw [whole, Segment.marked, List.map_map]
  exact List.map_id _

/-- Of a comment its newlines are left. -/
theorem left_marked_comment (body : List Char) :
    left (Segment.marked (.comment body)) = body.filter (· = '\n') := by
  have hmarks (cs : List Char) : left (cs.map fun c => (c, decide (c = '\n')))
      = cs.filter (· = '\n') := by
    rw [left, List.filter_map, List.map_map]
    exact List.map_id _
  rw [Segment.marked, hmarks]
  simp

/-- With deletions undone the text is as it was. -/
theorem whole_marks (text : List Char) : whole (marks text) = text := by
  rw [marks]
  fun_induction segments text with
  | case1 text body rest h ih =>
    rw [List.flatMap_cons, whole_append, whole_marked_comment, ih, (split?_eq_some_iff.mp h).1]
    simp
  | case2 => rfl
  | case3 c cs h ih =>
    rw [List.flatMap_cons, whole_append, ih]
    rfl

/-- What is left is the stripped text. -/
theorem left_marks (text : List Char) : left (marks text) = strip text := by
  rw [marks]
  fun_induction segments text with
  | case1 text body rest h ih =>
    rw [List.flatMap_cons, left_append, left_marked_comment, ih, strip_of_split? h]
  | case2 => exact strip_nil.symm
  | case3 c cs h ih =>
    rw [List.flatMap_cons, left_append, ih, strip_cons h]
    rfl

/-- What is deleted is no newline. -/
theorem ne_newline_of_mem_marks (text : List Char) {c : Char} (h : (c, false) ∈ marks text) :
    c ≠ '\n' := by
  obtain ⟨segment, -, hmem⟩ := List.mem_flatMap.mp h
  cases segment with
  | char d => simp [Segment.marked] at hmem
  | comment body =>
    obtain ⟨d, -, hd⟩ := List.mem_map.mp hmem
    obtain ⟨rfl, hnewline⟩ := Prod.mk.inj hd
    exact of_decide_eq_false hnewline

/-- If no newline is deleted, all are left. -/
theorem count_newline_left {ms : List Marked} (h : ∀ c, (c, false) ∈ ms → c ≠ '\n') :
    (left ms).count '\n' = (whole ms).count '\n' := by
  induction ms with
  | nil => rfl
  | cons m ms ih =>
    obtain ⟨c, isLeft⟩ := m
    have hms := ih fun d hd => h d (List.mem_cons_of_mem _ hd)
    cases isLeft with
    | true =>
      show (c :: left ms).count '\n' = (c :: whole ms).count '\n'
      rw [List.count_cons, List.count_cons, hms]
    | false =>
      show (left ms).count '\n' = (c :: whole ms).count '\n'
      rw [List.count_cons_of_ne (h c List.mem_cons_self), hms]

/-- **Lines survive the removal of comments.** The closed comments of a text are found in one way:
from the left, each up to its first `*/`. Stripping deletes those of their characters that are no
newlines, and nothing else. So there are as many newlines as before, and each character that is left
stands on the line in the stripped text on which it stands in the text. -/
theorem strip_keeps_lines (text : List Char) :
    (∀ ss, Divides text ss ↔ ss = segments text) ∧
      whole (marks text) = text ∧ left (marks text) = strip text ∧
      (strip text).count '\n' = text.count '\n' ∧
      ∀ before c after, marks text = before ++ (c, true) :: after →
        (Lines.lookup (strip text) (byteLength (left before))).line =
          (Lines.lookup text (byteLength (whole before))).line := by
  refine ⟨fun ss => divides_iff, whole_marks text, left_marks text, ?_, ?_⟩
  · have hcount := count_newline_left fun c => ne_newline_of_mem_marks text
    rwa [left_marks, whole_marks] at hcount
  · intro before c after hmarks
    have hcount : (left before).count '\n' = (whole before).count '\n' := by
      refine count_newline_left fun d hd => ne_newline_of_mem_marks text ?_
      rw [hmarks]
      exact List.mem_append_left _ hd
    have hleft : strip text = left before ++ left ((c, true) :: after) := by
      rw [← left_marks, hmarks, left_append]
    have hwhole : text = whole before ++ whole ((c, true) :: after) := by
      rw [← whole_append, ← hmarks, whole_marks]
    rw [hleft, Lines.lookup_append, hcount, hwhole, Lines.lookup_append]

/-- A comment over two lines that ends with two stars, and a `/*/` that is never closed. -/
def starredComment : List Char :=
  "é/*\n**/x/*/y".toList

/-- The `x` of `starredComment` moves from the eighth byte to the third and stays on its line. -/
theorem strip_keeps_lines_starredComment :
    strip starredComment = "é\nx/*/y".toList ∧
    segments starredComment =
      [.char 'é', .comment ['\n', '*'], .char 'x', .char '/', .char '*', .char '/', .char 'y'] ∧
    (Lines.lookup (strip starredComment) 3).line = (Lines.lookup starredComment 8).line := by
  have hmarks : marks starredComment =
      (marks starredComment).take 7 ++ ('x', true) :: (marks starredComment).drop 8 := by
    decide +kernel
  have hleft : byteLength (left ((marks starredComment).take 7)) = 3 := by decide +kernel
  have hwhole : byteLength (whole ((marks starredComment).take 7)) = 8 := by decide +kernel
  obtain ⟨-, -, -, -, hlines⟩ := strip_keeps_lines starredComment
  have hline := hlines _ _ _ hmarks
  rw [hleft, hwhole] at hline
  exact ⟨by decide +kernel, by decide +kernel, hline⟩

end Duet.Comment
