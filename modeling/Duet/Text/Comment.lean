import Duet.Text.Span

/-!
# Block comments

A block comment opens with `/*` and is closed by the first `*/` after the two opening
characters, so `/*/` is still open. An opening that is never closed is not a comment at all.

`strip` removes every comment of a text and keeps the newlines inside it, which leaves all
that follows on the line where it was.
-/

namespace Duet.Comment

/-- What stands before the first `*/`, and what follows it; nothing if there is none. -/
def splitAtClose : List Char → Option (List Char × List Char)
  | '*' :: '/' :: rest => some ([], rest)
  | c :: cs =>
    match splitAtClose cs with
    | some (body, rest) => some (c :: body, rest)
    | none => none
  | [] => none

/-- Splitting at a close loses nothing but the two closing characters. -/
theorem eq_of_splitAtClose {cs body rest : List Char}
    (h : splitAtClose cs = some (body, rest)) : cs = body ++ '*' :: '/' :: rest := by
  fun_induction splitAtClose cs generalizing body with
  | case1 r => simp_all
  | case2 c cs _ b r hb ih =>
    simp only [Option.some.injEq, Prod.mk.injEq] at h
    obtain ⟨rfl, rfl⟩ := h
    simp [ih hb]
  | case3 => simp at h
  | case4 => simp at h

/-- What follows a close is shorter than what the search began with. -/
theorem length_lt_of_splitAtClose {cs body rest : List Char}
    (h : splitAtClose cs = some (body, rest)) : rest.length < cs.length := by
  rw [eq_of_splitAtClose h]
  simp
  omega

/-- The comment at the front of a text: its body and what follows it. -/
def split? : List Char → Option (List Char × List Char)
  | '/' :: '*' :: cs => splitAtClose cs
  | _ => none

/-- A comment at the front takes at least its opening. -/
theorem length_lt_of_split? {cs body rest : List Char} (h : split? cs = some (body, rest)) :
    rest.length < cs.length := by
  unfold split? at h
  split at h
  · have := length_lt_of_splitAtClose h
    simp
    omega
  · simp at h

/-- A text with every comment replaced by the newlines inside it. -/
def strip (text : List Char) : List Char :=
  match _h : split? text with
  | some (body, rest) => body.filter (· = '\n') ++ strip rest
  | none =>
    match text with
    | [] => []
    | c :: cs => c :: strip cs
termination_by text.length
decreasing_by
  · exact length_lt_of_split? _h
  · simp

end Duet.Comment
