import Duet.Proofs.LexerParts
import Duet.Proofs.PrintRoundTrip

/-!
# The slice of a source at the span of a node

Every statement and every expression of an accepted source carries a span. The slice of the source
at this span is a source of its own: it is read as one statement, which is the node itself with all
spans counted from the start of the slice (`readsBack_of_readProgram`).

Three facts make it up. The tokens of a node stand next to each other among those of the source
(`Concrete.exists_of_mem_subterms`). The span of a node goes from the start of its first token to
the end of its last one (`ConcreteStmt.span_tree`), whichever rule the span was put together by. And
tokens that stand next to each other are those of some parts of the source
(`Lexer.exists_parts_of_within`), which are read in the same way on their own.
-/

namespace Duet

/-! ## Slices -/

/-- The first `n` bytes of a text and the rest, if a character ends there. -/
def splitAtByte? (n : Nat) : List Char → Option (List Char × List Char)
  | [] => if n = 0 then some ([], []) else none
  | c :: cs =>
    if n = 0 then some ([], c :: cs)
    else if c.utf8Size ≤ n then
      (splitAtByte? (n - c.utf8Size) cs).map fun (front, back) => (c :: front, back)
    else none

/-- The part of a source at a span, if the span begins and ends between characters. -/
def slice? (source : String) (s : Span) : Option String :=
  if s.start ≤ s.stop then
    (splitAtByte? s.start source.toList).bind fun (_, tail) =>
      (splitAtByte? (s.stop - s.start) tail).map fun (part, _) => String.ofList part
  else none

/-- A text is split at the byte behind its first part. -/
theorem splitAtByte?_byteLength (front back : List Char) :
    splitAtByte? (byteLength front) (front ++ back) = some (front, back) := by
  induction front with
  | nil => cases back <;> simp [splitAtByte?]
  | cons c front ih =>
    have hpos := c.utf8Size_pos
    simp [splitAtByte?, ih, Nat.ne_of_gt hpos]

/-- A part of a source is the slice at the bytes that it takes. -/
theorem slice?_of_append {source : String} {before part after : List Char}
    (h : source.toList = before ++ (part ++ after)) :
    slice? source ⟨byteLength before, byteLength before + byteLength part⟩ =
      some (String.ofList part) := by
  simp [slice?, h, splitAtByte?_byteLength]

/-! ## The tokens of a slice -/

namespace Lexer

/-- Tokens keep their distances wherever their parts stand. -/
theorem place_shift (offset k : Nat) (ps : List Part) :
    place (offset + k) ps = (place offset ps).map (Lexeme.mapSpan (Span.shift k)) := by
  induction ps generalizing offset with
  | nil => rfl
  | cons p ps ih =>
    have hnext (n : Nat) : offset + k + n = offset + n + k := Nat.add_right_comm ..
    cases p <;> simp [place, hnext, ih, Lexeme.mapSpan, Span.shift]

/-- Parts can be cut in front of a token. -/
theorem exists_parts_of_place_append {offset : Nat} {ps : List Part} {before : List Lexeme}
    {l : Lexeme} {ls : List Lexeme} (h : place offset ps = before ++ l :: ls) :
    ∃ qs rs, ps = qs ++ rs ∧ place (offset + byteLength (Part.texts qs)) rs = l :: ls ∧
      l.span.start = offset + byteLength (Part.texts qs) := by
  induction ps generalizing offset before with
  | nil => simp [place] at h
  | cons p ps ih =>
    cases p with
    | gap passed =>
      obtain ⟨qs, rs, rfl, hplace, hstart⟩ := ih h
      exact ⟨.gap passed :: qs, rs, rfl, by simpa [Part.text, Nat.add_assoc] using hplace,
        by simpa [Part.text, Nat.add_assoc] using hstart⟩
    | token found spelled =>
      cases before with
      | nil =>
        obtain ⟨rfl, -⟩ := List.cons.inj h
        exact ⟨[], _, rfl, h, rfl⟩
      | cons first before =>
        obtain ⟨-, h⟩ := List.cons.inj h
        obtain ⟨qs, rs, rfl, hplace, hstart⟩ := ih h
        exact ⟨.token found spelled :: qs, rs, rfl,
          by simpa [Part.text, Nat.add_assoc] using hplace,
          by simpa [Part.text, Nat.add_assoc] using hstart⟩

/-- Parts can be cut behind a token. -/
theorem exists_parts_of_append_place {offset : Nat} {ps : List Part} {ls : List Lexeme}
    {l : Lexeme} {after : List Lexeme} (h : place offset ps = ls ++ l :: after) :
    ∃ qs rs, ps = qs ++ rs ∧ place offset qs = ls ++ [l] ∧
      l.span.stop = offset + byteLength (Part.texts qs) := by
  induction ps generalizing offset ls with
  | nil => simp [place] at h
  | cons p ps ih =>
    cases p with
    | gap passed =>
      obtain ⟨qs, rs, rfl, hplace, hstop⟩ := ih h
      exact ⟨.gap passed :: qs, rs, rfl, hplace, by simpa [Part.text, Nat.add_assoc] using hstop⟩
    | token found spelled =>
      cases ls with
      | nil =>
        obtain ⟨rfl, -⟩ := List.cons.inj h
        exact ⟨[.token found spelled], ps, rfl, rfl, by simp [Part.text]⟩
      | cons first ls =>
        obtain ⟨rfl, htail⟩ := List.cons.inj h
        obtain ⟨qs, rs, rfl, hplace, hstop⟩ := ih htail
        exact ⟨.token found spelled :: qs, rs, rfl, by simp [place, hplace],
          by simpa [Part.text, Nat.add_assoc] using hstop⟩

end Lexer

/-! ## The span of a node -/

/-- The tokens follow one another without overlap. -/
structure Ordered (ls : List Lexeme) : Prop where
  apart : ls.Pairwise fun l l' => l.span.stop ≤ l'.span.start
  proper : ∀ l ∈ ls, l.span.start ≤ l.span.stop

/-- Tokens follow one another where they are placed, from the first offset on. -/
theorem Lexer.ordered_place (offset : Nat) (ps : List Part) :
    Ordered (place offset ps) ∧ ∀ l ∈ place offset ps, offset ≤ l.span.start := by
  induction ps generalizing offset with
  | nil => exact ⟨⟨.nil, by simp [place]⟩, by simp [place]⟩
  | cons p ps ih =>
    cases p with
    | gap passed =>
      obtain ⟨hordered, hfrom⟩ := ih (offset + byteLength passed)
      exact ⟨hordered, fun l hl => Nat.le_trans (Nat.le_add_right ..) (hfrom l hl)⟩
    | token found spelled =>
      obtain ⟨hordered, hfrom⟩ := ih (offset + byteLength spelled)
      refine ⟨⟨.cons hfrom hordered.apart, ?_⟩, ?_⟩
      · exact List.forall_mem_cons.mpr ⟨Nat.le_add_right .., hordered.proper⟩
      · exact List.forall_mem_cons.mpr ⟨Nat.le_refl _,
          fun l hl => Nat.le_trans (Nat.le_add_right ..) (hfrom l hl)⟩

/-- Tokens next to each other in an ordered list are ordered. -/
theorem Ordered.of_within {ls ls' : List Lexeme} (h : Ordered ls') (hwithin : ls <:+: ls') :
    Ordered ls :=
  ⟨h.apart.sublist hwithin.sublist, fun l hl => h.proper l (hwithin.subset hl)⟩

/-- The tokens go from the start to the stop of the span. -/
def Extends (ls : List Lexeme) (s : Span) : Prop :=
  (∃ l ∈ ls.head?, l.span.start = s.start) ∧ ∃ l ∈ ls.getLast?, l.span.stop = s.stop

/-- One token extends over its own span. -/
theorem extends_singleton (l : Lexeme) : Extends [l] l.span :=
  ⟨⟨l, rfl, rfl⟩, ⟨l, rfl, rfl⟩⟩

/-- Tokens that follow one another in a source are those of some of its parts, which begin and end
with the span that the tokens extend over. -/
theorem Lexer.exists_parts_of_within {ps : List Part} {ls : List Lexeme} {s : Span}
    (hwithin : ls <:+: place 0 ps) (hextends : Extends ls s) :
    ∃ qs mid us, ps = qs ++ (mid ++ us) ∧ place (byteLength (Part.texts qs)) mid = ls ∧
      s = ⟨byteLength (Part.texts qs),
        byteLength (Part.texts qs) + byteLength (Part.texts mid)⟩ := by
  obtain ⟨⟨first, hfirst, hstart⟩, ⟨last, hlast, hstop⟩⟩ := hextends
  obtain ⟨tail, htail⟩ := List.head?_eq_some_iff.mp hfirst
  obtain ⟨init, hinit⟩ := List.getLast?_eq_some_iff.mp hlast
  obtain ⟨before, after, hls⟩ := hwithin
  -- Cut off what stands in front of the first token, then what stands behind the last one.
  have hfront : place 0 ps = before ++ first :: (tail ++ after) := by
    rw [← hls, htail]
    simp
  obtain ⟨qs, rs, rfl, hplace, hqs⟩ := exists_parts_of_place_append hfront
  have hback : place (0 + byteLength (Part.texts qs)) rs = init ++ last :: after := by
    rw [hplace, ← List.cons_append, ← htail, hinit]
    simp
  obtain ⟨mid, us, rfl, hmid, hus⟩ := exists_parts_of_append_place hback
  rw [Nat.zero_add] at hqs hmid hus
  refine ⟨qs, mid, us, rfl, hmid.trans hinit.symm, ?_⟩
  rw [← hus, ← hqs, hstart, hstop]

/-- The span that covers the first and the last tokens covers all between them. -/
theorem Extends.merge {front back : List Lexeme} {s s' : Span} (hfront : Extends front s)
    (middle : List Lexeme) (hback : Extends back s')
    (hordered : Ordered (front ++ (middle ++ back))) :
    Extends (front ++ (middle ++ back)) (s.merge s') := by
  obtain ⟨⟨first, hfirst, hs⟩, ⟨lastOfFront, hlastOfFront, hs'⟩⟩ := hfront
  obtain ⟨⟨firstOfBack, hfirstOfBack, ht⟩, ⟨last, hlast, ht'⟩⟩ := hback
  have hmem : ∀ {l : Lexeme}, l ∈ back → l ∈ middle ++ back := List.mem_append_right _
  have hbefore := (List.pairwise_append.mp hordered.apart).2.2
  have hstart : first.span.start ≤ firstOfBack.span.start :=
    Nat.le_trans (hordered.proper _ (List.mem_append_left _ (List.mem_of_mem_head? hfirst)))
      (hbefore _ (List.mem_of_mem_head? hfirst) _ (hmem (List.mem_of_mem_head? hfirstOfBack)))
  have hstop : lastOfFront.span.stop ≤ last.span.stop :=
    Nat.le_trans
      (hbefore _ (List.mem_of_getLast? hlastOfFront) _ (hmem (List.mem_of_getLast? hlast)))
      (hordered.proper _ (List.mem_append_right _ (hmem (List.mem_of_getLast? hlast))))
  refine ⟨⟨first, ?_, ?_⟩, ⟨last, ?_, ?_⟩⟩
  · simp [List.head?_append, Option.mem_def.mp hfirst]
  · rw [hs, ht] at hstart
    rw [hs]
    exact (Nat.min_eq_left hstart).symm
  · simp [List.getLast?_append, Option.mem_def.mp hlast]
  · rw [hs', ht'] at hstop
    rw [ht']
    exact (Nat.max_eq_right hstop).symm

namespace Concrete

/-- The expressions directly inside an expression. -/
def children : Concrete → List Concrete
  | .integer .. | .text .. | .boolean .. | .nil _ | .name .. => []
  | .paren _ _ e | .unary _ _ e | .lambda _ _ _ _ e => [e]
  | .binary _ _ l r | .ifThen _ _ l r | .apply _ l r => [l, r]
  | .ifElse _ _ _ c t e => [c, t, e]

/-- An expression that stands inside another one: it follows the grammar if the other one does, and
its tokens stand next to each other. -/
structure Inside (d c : Concrete) : Prop where
  admissible : c.Admissible → d.Admissible
  tokens : d.lexemes <:+: c.lexemes

/-- An expression stands inside itself. -/
theorem Inside.refl (c : Concrete) : Inside c c :=
  ⟨id, List.infix_refl _⟩

/-- What stands inside an inner expression stands inside the outer one. -/
theorem Inside.trans {b d c : Concrete} (h : Inside b d) (h' : Inside d c) : Inside b c :=
  ⟨fun hc => h.admissible (h'.admissible hc), h.tokens.trans h'.tokens⟩

/-- The expressions directly inside an expression stand inside it. -/
theorem inside_of_mem_children {d c : Concrete} (h : d ∈ c.children) : Inside d c := by
  cases c with
  | integer | text | boolean | nil | name => cases h
  | paren opening closing e =>
    obtain rfl := List.mem_singleton.mp h
    exact ⟨id, [⟨.symbol .openParen, opening⟩], [⟨.symbol .closeParen, closing⟩], by simp [lexemes]⟩
  | unary s op e =>
    obtain rfl := List.mem_singleton.mp h
    exact ⟨And.right, [⟨op.token, s⟩], [], by simp [lexemes]⟩
  | lambda s sparam sdot param body =>
    obtain rfl := List.mem_singleton.mp h
    exact ⟨id, [⟨.keyword .lambda, s⟩, ⟨.name param, sparam⟩, ⟨.symbol .dot, sdot⟩], [],
      by simp [lexemes]⟩
  | binary s op l r =>
    simp only [children, List.mem_cons, List.not_mem_nil, or_false] at h
    rcases h with rfl | rfl
    · exact ⟨fun h => h.2.2.2.1, [], ⟨op.token, s⟩ :: r.lexemes, rfl⟩
    · exact ⟨fun h => h.2.2.2.2, l.lexemes ++ [⟨op.token, s⟩], [], by simp [lexemes]⟩
  | ifThen sif sthen c t =>
    simp only [children, List.mem_cons, List.not_mem_nil, or_false] at h
    rcases h with rfl | rfl
    · exact ⟨fun h => h.1, [⟨.keyword .if_, sif⟩], ⟨.keyword .then_, sthen⟩ :: t.lexemes, rfl⟩
    · exact ⟨fun h => h.2, ⟨.keyword .if_, sif⟩ :: (c.lexemes ++ [⟨.keyword .then_, sthen⟩]), [],
        by simp [lexemes]⟩
  | apply s f a =>
    simp only [children, List.mem_cons, List.not_mem_nil, or_false] at h
    rcases h with rfl | rfl
    · exact ⟨fun h => h.2.1, [], ⟨.symbol .pipe, s⟩ :: a.lexemes, rfl⟩
    · exact ⟨fun h => h.2.2, f.lexemes ++ [⟨.symbol .pipe, s⟩], [], by simp [lexemes]⟩
  | ifElse sif sthen selse c t e =>
    simp only [children, List.mem_cons, List.not_mem_nil, or_false] at h
    rcases h with rfl | rfl | rfl
    · exact ⟨fun h => h.2.1, [⟨.keyword .if_, sif⟩],
        ⟨.keyword .then_, sthen⟩ :: (t.lexemes ++ ⟨.keyword .else_, selse⟩ :: e.lexemes), rfl⟩
    · exact ⟨fun h => h.2.2.1, ⟨.keyword .if_, sif⟩ :: (c.lexemes ++ [⟨.keyword .then_, sthen⟩]),
        ⟨.keyword .else_, selse⟩ :: e.lexemes, by simp [lexemes]⟩
    · exact ⟨fun h => h.2.2.2, ⟨.keyword .if_, sif⟩ :: (c.lexemes ++ ⟨.keyword .then_, sthen⟩ ::
        (t.lexemes ++ [⟨.keyword .else_, selse⟩])), [], by simp [lexemes]⟩

/-- The tokens of a child follow one another if those of its parent do. -/
theorem ordered_child {d c : Concrete} (h : Ordered c.lexemes) (hd : d ∈ c.children) :
    Ordered d.lexemes :=
  h.of_within (inside_of_mem_children hd).tokens

/-- A token and the last one of an expression behind it extend over all that is between them. -/
theorem extends_lastSpan (l : Lexeme) (middle : List Lexeme) (c : Concrete)
    (h : Ordered (l :: (middle ++ c.lexemes))) :
    Extends (l :: (middle ++ c.lexemes)) (l.span.merge c.lastSpan) := by
  obtain ⟨init, t, hc⟩ := c.exists_lexemes_eq_concat
  rw [hc, ← List.append_assoc] at h ⊢
  exact (extends_singleton l).merge (middle ++ init) (extends_singleton ⟨t, c.lastSpan⟩) h

/-- The span of an expression goes from its first to its last token. -/
theorem span_tree {c : Concrete} (h : Ordered c.lexemes) : Extends c.lexemes c.tree.span := by
  induction c with
  | integer | text | boolean | nil | name => exact extends_singleton _
  | paren opening closing e =>
    rw [tree, Expr.span_withSpan]
    exact (extends_singleton ⟨.symbol .openParen, opening⟩).merge e.lexemes
      (extends_singleton ⟨.symbol .closeParen, closing⟩) h
  | unary s op e => exact e.extends_lastSpan ⟨op.token, s⟩ [] h
  | binary s op l r ihl ihr =>
    have hl := ihl (ordered_child h (by simp [children]))
    have hr := ihr (ordered_child h (by simp [children]))
    exact hl.merge [⟨op.token, s⟩] hr h
  | ifThen sif sthen c t =>
    have hall := t.extends_lastSpan ⟨.keyword .if_, sif⟩ (c.lexemes ++ [⟨.keyword .then_, sthen⟩])
    rw [List.append_assoc] at hall
    exact hall h
  | ifElse sif sthen selse c t e =>
    have hall := e.extends_lastSpan ⟨.keyword .if_, sif⟩
      (c.lexemes ++ ⟨.keyword .then_, sthen⟩ :: (t.lexemes ++ [⟨.keyword .else_, selse⟩]))
    rw [List.append_assoc, List.cons_append, List.append_assoc] at hall
    exact hall h
  | lambda s sparam sdot param body =>
    exact body.extends_lastSpan ⟨.keyword .lambda, s⟩ [⟨.name param, sparam⟩, ⟨.symbol .dot, sdot⟩] h
  | apply s f a ihf iha =>
    have hf := ihf (ordered_child h (by simp [children]))
    have ha := iha (ordered_child h (by simp [children]))
    exact hf.merge [⟨.symbol .pipe, s⟩] ha h

end Concrete

/-- A subterm of a node with another span is this node or a subterm of the old one. -/
theorem Expr.mem_subterms_withSpan {e t : Expr} {s : Span} (h : e ∈ (t.withSpan s).subterms) :
    e = t.withSpan s ∨ e ∈ t.subterms := by
  cases t with
  | integer | text | boolean | nil | name => exact .inl (List.mem_singleton.mp h)
  | _ => exact (List.mem_cons.mp h).imp_right (List.mem_cons_of_mem _)

/-- Every expression inside the tree of a written expression is the tree of a part of it. -/
theorem Concrete.exists_of_mem_subterms {c : Concrete} {e : Expr} (h : e ∈ c.tree.subterms) :
    ∃ d, d.tree = e ∧ Inside d c := by
  induction c with
  | integer | text | boolean | nil | name =>
    obtain rfl := List.mem_singleton.mp h
    exact ⟨_, rfl, .refl _⟩
  | paren opening closing inner ih =>
    -- parentheses are no node of the tree: they give the node inside another span
    rcases Expr.mem_subterms_withSpan h with rfl | h
    · exact ⟨.paren opening closing inner, rfl, .refl _⟩
    · obtain ⟨d, rfl, hd⟩ := ih h
      exact ⟨d, rfl, hd.trans (inside_of_mem_children (by simp [children]))⟩
  | unary s op inner ih | lambda s _ _ param inner ih =>
    rcases List.mem_cons.mp h with rfl | h
    · exact ⟨_, rfl, .refl _⟩
    · obtain ⟨d, rfl, hd⟩ := ih h
      exact ⟨d, rfl, hd.trans (inside_of_mem_children (by simp [children]))⟩
  | binary s op l r ihl ihr | ifThen _ _ l r ihl ihr | apply s l r ihl ihr =>
    rcases List.mem_cons.mp h with rfl | h
    · exact ⟨_, rfl, .refl _⟩
    rcases List.mem_append.mp h with h | h
    · obtain ⟨d, rfl, hd⟩ := ihl h
      exact ⟨d, rfl, hd.trans (inside_of_mem_children (by simp [children]))⟩
    · obtain ⟨d, rfl, hd⟩ := ihr h
      exact ⟨d, rfl, hd.trans (inside_of_mem_children (by simp [children]))⟩
  | ifElse sif sthen selse c t e ihc iht ihe =>
    rcases List.mem_cons.mp h with rfl | h
    · exact ⟨.ifElse sif sthen selse c t e, rfl, .refl _⟩
    simp only [List.mem_append] at h
    rcases h with (h | h) | h
    · obtain ⟨d, rfl, hd⟩ := ihc h
      exact ⟨d, rfl, hd.trans (inside_of_mem_children (by simp [children]))⟩
    · obtain ⟨d, rfl, hd⟩ := iht h
      exact ⟨d, rfl, hd.trans (inside_of_mem_children (by simp [children]))⟩
    · obtain ⟨d, rfl, hd⟩ := ihe h
      exact ⟨d, rfl, hd.trans (inside_of_mem_children (by simp [children]))⟩

/-- The tokens of the expression of a statement stand next to each other in the statement. -/
theorem ConcreteStmt.tokens_value (c : ConcreteStmt) : c.value.lexemes <:+: c.lexemes := by
  cases c with
  | define s sname sas x value closing =>
    exact ⟨[⟨.keyword .define, s⟩, ⟨.name x, sname⟩, ⟨.keyword .as_, sas⟩],
      (closing.map (⟨.keyword .end_, ·⟩)).toList, by simp [lexemes, ConcreteStmt.value]⟩
  | puts s value => exact ⟨[⟨.keyword .puts, s⟩], [], by simp [lexemes, ConcreteStmt.value]⟩
  | expression value => exact List.infix_refl _

/-- The span of a statement goes from its first to its last token. -/
theorem ConcreteStmt.span_tree {c : ConcreteStmt} (h : Ordered c.lexemes) :
    Extends c.lexemes c.tree.span := by
  have hvalue := Concrete.span_tree (h.of_within c.tokens_value)
  cases c with
  | define s sname sas x value closing =>
    cases closing with
    | none =>
      have htokens : lexemes (.define s sname sas x value none) = [⟨.keyword .define, s⟩] ++
          ([⟨.name x, sname⟩, ⟨.keyword .as_, sas⟩] ++ value.lexemes) := by simp [lexemes]
      rw [htokens] at h ⊢
      exact value.extends_lastSpan ⟨.keyword .define, s⟩ [⟨.name x, sname⟩, ⟨.keyword .as_, sas⟩] h
    | some closing =>
      have hall := (extends_singleton ⟨.keyword .define, s⟩).merge
        (⟨.name x, sname⟩ :: ⟨.keyword .as_, sas⟩ :: value.lexemes)
        (extends_singleton ⟨.keyword .end_, closing⟩)
      exact hall h
  | puts s value => exact (extends_singleton ⟨.keyword .puts, s⟩).merge [] hvalue h
  | expression value => exact hvalue

namespace ConcreteProgram

/-- The expressions of a program that follows the grammar follow it too. -/
theorem Admissible.value_of_mem {cs : ConcreteProgram} (h : cs.Admissible) {c : ConcreteStmt}
    (hc : c ∈ cs) : c.value.Admissible := by
  induction cs with
  | nil => cases hc
  | cons d cs ih =>
    rcases List.mem_cons.mp hc with rfl | hc
    · exact h.1
    · exact ih h.2.2 hc

/-- The tokens of a statement stand next to each other in the program. -/
theorem infix_of_mem {cs : ConcreteProgram} {c : ConcreteStmt} (hc : c ∈ cs) :
    c.lexemes <:+: cs.lexemes := by
  obtain ⟨before, after, rfl⟩ := List.append_of_mem hc
  exact ⟨lexemes before, lexemes after, by simp [lexemes]⟩

end ConcreteProgram

/-! ## Statements moved in the text -/

namespace ConcreteStmt

/-- The statement with the spans of its tokens replaced by their images under `f`. -/
def mapSpan (f : Span → Span) : ConcreteStmt → ConcreteStmt
  | .define s sname sas x value closing =>
    .define (f s) (f sname) (f sas) x (value.mapSpan f) (closing.map f)
  | .puts s value => .puts (f s) (value.mapSpan f)
  | .expression value => .expression (value.mapSpan f)

/-- The tokens of a statement with changed spans are those of the statement, with changed spans. -/
theorem lexemes_mapSpan (f : Span → Span) (c : ConcreteStmt) :
    (c.mapSpan f).lexemes = c.lexemes.map (Lexeme.mapSpan f) := by
  cases c with
  | define s sname sas x value closing =>
    cases closing <;> simp [mapSpan, lexemes, Concrete.lexemes_mapSpan, Lexeme.mapSpan]
  | puts | expression => simp [mapSpan, lexemes, Concrete.lexemes_mapSpan, Lexeme.mapSpan]

/-- Spans do not matter for whether the expression of a statement follows the grammar. -/
theorem admissible_value_mapSpan (f : Span → Span) {c : ConcreteStmt} (h : c.value.Admissible) :
    (c.mapSpan f).value.Admissible := by
  cases c <;> exact (Concrete.admissible_mapSpan_iff f _).mpr h

/-- The nodes of a statement are moved as its tokens are. -/
theorem tree_mapSpan {f : Span → Span} (hf : ∀ a b : Span, f (a.merge b) = (f a).merge (f b))
    (c : ConcreteStmt) : (c.mapSpan f).tree = c.tree.mapSpan f := by
  cases c with
  | define s sname sas x value closing =>
    cases closing <;> simp [mapSpan, tree, Stmt.mapSpan, Concrete.tree_mapSpan hf, hf]
  | puts | expression => simp [mapSpan, tree, Stmt.mapSpan, Concrete.tree_mapSpan hf, hf]

end ConcreteStmt

namespace Span

/-- Spans may be merged before or after they are shifted. -/
theorem shift_merge (k : Nat) (a b : Span) :
    (a.merge b).shift k = (a.shift k).merge (b.shift k) := by
  simp [shift, merge, Nat.add_min_add_right, Nat.add_max_add_right]

/-- The span moved to the left by `k` bytes. -/
def unshift (k : Nat) (s : Span) : Span :=
  ⟨s.start - k, s.stop - k⟩

/-- A shift to the left undoes one to the right. -/
theorem unshift_shift (k : Nat) (s : Span) : (s.shift k).unshift k = s := by
  simp [shift, unshift]

end Span

/-- A statement by itself is a program. -/
theorem readsProgram_singleton {c : ConcreteStmt} (h : c.value.Admissible) :
    Parser.ReadsProgram c.lexemes [c] :=
  Parser.readsProgram_iff.mpr ⟨⟨h, nofun, trivial⟩, List.append_nil _⟩

/-- The tokens of a statement, moved to the left, are read as the statement moved to the left. -/
theorem parse_of_shifted {c : ConcreteStmt} (hadm : c.value.Admissible) {ls : List Lexeme} {k : Nat}
    (h : c.lexemes = ls.map (Lexeme.mapSpan (Span.shift k))) :
    ∃ again, parse ls = .ok [again] ∧ again.mapSpan (Span.shift k) = c.tree := by
  let d := c.mapSpan (Span.unshift k)
  have hd : d.lexemes = ls := by
    rw [ConcreteStmt.lexemes_mapSpan, h, List.map_map]
    have hid : Lexeme.mapSpan (Span.unshift k) ∘ Lexeme.mapSpan (Span.shift k) = id := by
      funext l
      simp [Lexeme.mapSpan, Span.unshift_shift]
    rw [hid, List.map_id]
  have hadmd : d.value.Admissible := ConcreteStmt.admissible_value_mapSpan _ hadm
  have hreads : Parser.ReadsProgram ls [d] := hd ▸ readsProgram_singleton hadmd
  refine ⟨d.tree, Parser.parse_eq_ok_iff.mpr ⟨[d], rfl, hreads⟩, ?_⟩
  -- Moved back, `d` has the tokens of `c`; no other statement than `c` has them.
  have hback : Parser.ReadsProgram c.lexemes [d.mapSpan (Span.shift k)] := by
    have hmoved := ConcreteStmt.admissible_value_mapSpan (Span.shift k) hadmd
    have hsingle := readsProgram_singleton hmoved
    rwa [ConcreteStmt.lexemes_mapSpan, hd, ← h] at hsingle
  obtain ⟨hc, -⟩ := List.cons.inj (hback.det (readsProgram_singleton hadm))
  rw [← ConcreteStmt.tree_mapSpan (Span.shift_merge k), hc]

/-! ## Nodes are read back from their slices -/

/-- The slice of the source at the span of the statement is read as one statement: this one, with
all spans counted from the start of the slice. -/
def ReadsBack (source : String) (statement : Stmt) : Prop :=
  ∃ part again, slice? source statement.span = some part ∧ readProgram part = .ok [again] ∧
    again.mapSpan (Span.shift statement.span.start) = statement

/-- A statement is read back from the slice of a source that holds its tokens. -/
theorem readsBack_of_tokens {source : String} {ls : List Lexeme} (hlex : lex source = .ok ls)
    {c : ConcreteStmt} (hadm : c.value.Admissible) (hwithin : c.lexemes <:+: ls) :
    ReadsBack source c.tree := by
  obtain ⟨ps, hps, rfl⟩ := Lexer.lexFrom_eq_ok_iff.mp hlex
  have hextends := ConcreteStmt.span_tree ((Lexer.ordered_place 0 ps).1.of_within hwithin)
  obtain ⟨qs, mid, us, rfl, hmid, hspan⟩ := Lexer.exists_parts_of_within hwithin hextends
  have hsource : source.toList =
      Lexer.Part.texts qs ++ (Lexer.Part.texts mid ++ Lexer.Part.texts us) := by
    rw [← hps.texts_eq, Lexer.Part.texts_append, Lexer.Part.texts_append]
  have hpart : lex (String.ofList (Lexer.Part.texts mid)) = .ok (Lexer.place 0 mid) := by
    rw [lex, String.toList_ofList]
    exact Lexer.lexFrom_of_divides hps.drop.take 0
  have hmoved : c.lexemes = (Lexer.place 0 mid).map
      (Lexeme.mapSpan (Span.shift (byteLength (Lexer.Part.texts qs)))) := by
    rw [← hmid, ← Lexer.place_shift, Nat.zero_add]
  obtain ⟨again, hparse, hagain⟩ := parse_of_shifted hadm hmoved
  refine ⟨_, again, ?_, readProgram_eq_ok_iff.mpr ⟨_, hpart, hparse⟩, ?_⟩
  · rw [hspan]
    exact slice?_of_append hsource
  · rw [hspan]
    exact hagain

/-- Every statement of an accepted source, and every expression inside one, is read back from the
slice of the source at its span. -/
theorem readsBack_of_readProgram {source : String} {p : Program}
    (hread : readProgram source = .ok p) :
    (∀ statement ∈ p, ReadsBack source statement) ∧
      ∀ e ∈ Program.subterms p, ReadsBack source (.expression e) := by
  obtain ⟨ls, hlex, hparse⟩ := readProgram_eq_ok_iff.mp hread
  obtain ⟨cs, rfl, hreads⟩ := Parser.parse_eq_ok_iff.mp hparse
  obtain ⟨hadm, rfl⟩ := Parser.readsProgram_iff.mp hreads
  constructor
  · intro statement hstatement
    obtain ⟨c, hc, rfl⟩ := List.mem_map.mp hstatement
    exact readsBack_of_tokens hlex (hadm.value_of_mem hc) (ConcreteProgram.infix_of_mem hc)
  · intro e he
    obtain ⟨statement, hstatement, he⟩ := List.mem_flatMap.mp he
    obtain ⟨c, hc, rfl⟩ := List.mem_map.mp hstatement
    rw [c.value_tree] at he
    obtain ⟨d, rfl, hd⟩ := Concrete.exists_of_mem_subterms he
    exact readsBack_of_tokens (c := .expression d) hlex (hd.admissible (hadm.value_of_mem hc))
      (hd.tokens.trans (c.tokens_value.trans (ConcreteProgram.infix_of_mem hc)))

/-- A definition closed by `end` with a conditional in parentheses, a text that is longer in bytes
than in characters, and behind a comment a negation. -/
def closedDefinition : String :=
  "define f as lambda x . if x then (if x then \"é\") else -(2 * x) end /* ü */ -f | (3 - 1)"

/-- The conditional in parentheses. -/
def innerConditional : Expr :=
  .ifThen ⟨33, 49⟩ (.name ⟨37, 38⟩ "x") (.text ⟨44, 48⟩ "é")

/-- The statements of `closedDefinition`. -/
def closedDefinitionProgram : Program :=
  [.define ⟨0, 67⟩ "f"
    (.lambda ⟨12, 63⟩ "x"
      (.ifElse ⟨23, 63⟩ (.name ⟨26, 27⟩ "x") innerConditional
        (.unary ⟨55, 63⟩ .negate
          (.binary ⟨56, 63⟩ (.arith .multiply) (.integer ⟨57, 58⟩ 2) (.name ⟨61, 62⟩ "x"))))),
   .expression
    (.unary ⟨77, 89⟩ .negate
      (.apply ⟨78, 89⟩ (.name ⟨78, 79⟩ "f")
        (.binary ⟨82, 89⟩ (.arith .subtract) (.integer ⟨83, 84⟩ 3) (.integer ⟨87, 88⟩ 1))))]

/-- The statements of `closedDefinition` are read back from their slices, and so is the conditional
from its parentheses. -/
theorem readsBack_closedDefinition :
    readProgram closedDefinition = .ok closedDefinitionProgram ∧
    (∀ statement ∈ closedDefinitionProgram, ReadsBack closedDefinition statement) ∧
    innerConditional ∈ Program.subterms closedDefinitionProgram ∧
    slice? closedDefinition innerConditional.span = some "(if x then \"é\")" ∧
    ReadsBack closedDefinition (.expression innerConditional) := by
  have hread : readProgram closedDefinition = .ok closedDefinitionProgram :=
    readProgram_eq_ok_of_toOption (by decide +kernel)
  have hmem : innerConditional ∈ Program.subterms closedDefinitionProgram := by decide
  obtain ⟨hstatements, hexpressions⟩ := readsBack_of_readProgram hread
  exact ⟨hread, hstatements, hmem, by decide +kernel, hexpressions _ hmem⟩

end Duet
