/-!
# Spans: byte ranges of a text

Every offset in this library counts bytes of the UTF-8 form of a text, while texts themselves
are handled as lists of characters. This file holds the two notions that bridge them: the byte
length of a list of characters, and the span, a pair of byte offsets.
-/

namespace Duet

/-- The number of bytes a list of characters takes in UTF-8. -/
def byteLength : List Char → Nat
  | [] => 0
  | c :: cs => c.utf8Size + byteLength cs

@[simp] theorem byteLength_nil : byteLength [] = 0 := rfl

@[simp] theorem byteLength_cons (c : Char) (cs : List Char) :
    byteLength (c :: cs) = c.utf8Size + byteLength cs := rfl

/-- A text in two parts is as long as both together. -/
@[simp] theorem byteLength_append (a b : List Char) :
    byteLength (a ++ b) = byteLength a + byteLength b := by
  induction a with
  | nil => simp
  | cons c cs ih => simp [ih, Nat.add_assoc]

/-- A byte range of a text: from `start` up to, but not including, `stop`. -/
structure Span where
  /-- The first byte of the range. -/
  start : Nat
  /-- The byte after the last one. -/
  stop : Nat
deriving DecidableEq, Repr, Inhabited

namespace Span

/-- The smallest span that covers both spans. -/
def merge (a b : Span) : Span where
  start := min a.start b.start
  stop := max a.stop b.stop

/-- The empty span at one offset. -/
def empty (offset : Nat) : Span := ⟨offset, offset⟩

/-- The span moved to the right by `n` bytes. -/
def shift (n : Nat) (s : Span) : Span := ⟨s.start + n, s.stop + n⟩

/-- A span merged with itself is itself. -/
@[simp] theorem merge_self (a : Span) : a.merge a = a := by
  simp [merge]

end Span

end Duet
