import Duet.Proofs.SpanSlices

/-!
# Spans nest

The spans of an accepted source form a tree in the same way as its nodes do. Statements follow one
another; the expression of a statement lies inside it; an expression lies inside its parent, and the
children of one node follow one another in the order of their fields. No span is empty, and each
goes from the start of a token to the end of one (`spans_nest_of_parse`).

A node has its span from one of several rules: it merges the spans of its children, or those of its
first and its last token, or those of two parentheses. All of them come to the same, since tokens
follow one another: the span goes from the first to the last token of the node
(`Concrete.span_tree`). What remains is about lists of tokens that follow one another (`Ordered`):
those of a child are among those of its parent (`Concrete.exists_children`), and all of one child
stand before all of the next.
-/

namespace Duet

namespace Span

/-- The other span lies inside the span. -/
def Covers (outer inner : Span) : Prop :=
  outer.start ≤ inner.start ∧ inner.stop ≤ outer.stop

/-- The span ends before the other one begins. -/
def Precedes (a b : Span) : Prop :=
  a.stop ≤ b.start

end Span

/-- The span begins where a token begins and ends where a token ends. -/
def OnTokens (ls : List Lexeme) (s : Span) : Prop :=
  (∃ l ∈ ls, l.span.start = s.start) ∧ ∃ l ∈ ls, l.span.stop = s.stop

/-- The expressions directly inside an expression, in the order of its fields. -/
def Expr.children : Expr → List Expr
  | .integer .. | .text .. | .boolean .. | .nil _ | .name .. => []
  | .unary _ _ e => [e]
  | .binary _ _ l r => [l, r]
  | .ifThen _ c t => [c, t]
  | .ifElse _ c t e => [c, t, e]
  | .lambda _ _ body => [body]
  | .apply _ f a => [f, a]

@[simp] theorem Expr.children_withSpan (e : Expr) (s : Span) :
    (e.withSpan s).children = e.children := by
  cases e <;> rfl

/-! ## Tokens that extend over a span -/

/-- Tokens that are left out of a list leave the others in order. -/
theorem Ordered.sublist {ls ls' : List Lexeme} (h : Ordered ls') (hsub : ls.Sublist ls') :
    Ordered ls :=
  ⟨h.apart.sublist hsub, fun l hl => h.proper l (hsub.subset hl)⟩

/-- Every token lies inside the span that the tokens extend over. -/
theorem Extends.covers {ls : List Lexeme} {s : Span} (h : Extends ls s) (hordered : Ordered ls)
    {l : Lexeme} (hl : l ∈ ls) : s.Covers l.span := by
  obtain ⟨⟨first, hfirst, hstart⟩, ⟨last, hlast, hstop⟩⟩ := h
  constructor
  · obtain ⟨tail, rfl⟩ := List.head?_eq_some_iff.mp hfirst
    rw [← hstart]
    rcases List.mem_cons.mp hl with rfl | hl
    · exact Nat.le_refl _
    · exact Nat.le_trans (hordered.proper first List.mem_cons_self)
        ((List.pairwise_cons.mp hordered.apart).1 l hl)
  · obtain ⟨init, rfl⟩ := List.getLast?_eq_some_iff.mp hlast
    rw [← hstop]
    rcases List.mem_append.mp hl with hl | hl
    · exact Nat.le_trans ((List.pairwise_append.mp hordered.apart).2.2 l hl last (by simp))
        (hordered.proper last (by simp))
    · obtain rfl := List.mem_singleton.mp hl
      exact Nat.le_refl _

/-- A span that tokens extend over goes from token to token. -/
theorem Extends.onTokens {ls ls' : List Lexeme} {s : Span} (h : Extends ls s) (hsub : ls ⊆ ls') :
    OnTokens ls' s := by
  obtain ⟨⟨first, hfirst, hstart⟩, ⟨last, hlast, hstop⟩⟩ := h
  exact ⟨⟨first, hsub (List.mem_of_mem_head? hfirst), hstart⟩,
    ⟨last, hsub (List.mem_of_getLast? hlast), hstop⟩⟩

/-- A span that goes from token to token among those of another span lies inside it. -/
theorem Extends.covers_of_onTokens {ls : List Lexeme} {s s' : Span} (h : Extends ls s)
    (hordered : Ordered ls) (h' : OnTokens ls s') : s.Covers s' := by
  obtain ⟨⟨first, hfirst, hstart⟩, ⟨last, hlast, hstop⟩⟩ := h'
  exact ⟨hstart ▸ (h.covers hordered hfirst).1, hstop ▸ (h.covers hordered hlast).2⟩

/-- A span that tokens extend over is not empty if the tokens are not. -/
theorem Extends.start_lt_stop {ls : List Lexeme} {s : Span} (h : Extends ls s)
    (hordered : Ordered ls) (hproper : ∀ l ∈ ls, l.span.start < l.span.stop) :
    s.start < s.stop := by
  obtain ⟨first, hfirst, hstart⟩ := h.1
  have hmem := List.mem_of_mem_head? hfirst
  rw [← hstart]
  exact Nat.lt_of_lt_of_le (hproper first hmem) (h.covers hordered hmem).2

/-- The spans of tokens in two parts follow one another. -/
theorem Extends.precedes {front back : List Lexeme} {s s' : Span} (h : Extends front s)
    (h' : Extends back s') (hordered : Ordered (front ++ back)) : s.Precedes s' := by
  obtain ⟨last, hlast, hstop⟩ := h.2
  obtain ⟨first, hfirst, hstart⟩ := h'.1
  rw [Span.Precedes, ← hstop, ← hstart]
  exact (List.pairwise_append.mp hordered.apart).2.2 _ (List.mem_of_getLast? hlast)
    _ (List.mem_of_mem_head? hfirst)

/-- The tokens of a node are among those of all nodes, in order. -/
theorem sublist_flatMap_tokens {α : Type} {tokens : α → List Lexeme} {nodes : List α} {a : α}
    (h : a ∈ nodes) : (tokens a).Sublist (nodes.flatMap tokens) :=
  List.sublist_flatten_of_mem (List.mem_map_of_mem h)

/-- Nodes whose tokens follow one another have spans that follow one another. -/
theorem pairwise_precedes {α : Type} {tokens : α → List Lexeme} {span : α → Span}
    (hspan : ∀ a, Ordered (tokens a) → Extends (tokens a) (span a)) {nodes : List α}
    (hordered : Ordered (nodes.flatMap tokens)) :
    nodes.Pairwise fun a b => (span a).Precedes (span b) := by
  induction nodes with
  | nil => exact .nil
  | cons a nodes ih =>
    rw [List.flatMap_cons] at hordered
    have hrest := hordered.sublist (List.sublist_append_right _ _)
    refine .cons (fun b hb => ?_) (ih hrest)
    have hsub : (tokens b).Sublist (nodes.flatMap tokens) := sublist_flatMap_tokens hb
    have ha := hspan a (hordered.sublist (List.sublist_append_left _ _))
    exact ha.precedes (hspan b (hrest.sublist hsub))
      (hordered.sublist ((List.Sublist.refl _).append hsub))

/-! ## Children -/

/-- The children of a tree are trees of expressions whose tokens follow one another among those of
the whole. -/
theorem Concrete.exists_children (c : Concrete) :
    ∃ ds : List Concrete, ds.map tree = c.tree.children ∧
      (ds.flatMap lexemes).Sublist c.lexemes := by
  induction c with
  | integer | text | boolean | nil | name => exact ⟨[], rfl, List.nil_sublist _⟩
  | paren opening closing e ih =>
    -- Parentheses leave no node: the children are those of what they hold.
    obtain ⟨ds, hds, hsub⟩ := ih
    refine ⟨ds, by rw [hds, tree, Expr.children_withSpan], hsub.trans ?_⟩
    exact (List.sublist_append_left _ _).trans (List.sublist_cons_self _ _)
  | unary s op e => exact ⟨[e], rfl, by simp [lexemes]⟩
  | binary s op l r | apply s l r => exact ⟨[l, r], rfl, by simp [lexemes]⟩
  | ifThen sif sthen c t => exact ⟨[c, t], rfl, by simp [lexemes]⟩
  | ifElse sif sthen selse c t e =>
    have hsub : (c.lexemes ++ (t.lexemes ++ e.lexemes)).Sublist
        (lexemes (.ifElse sif sthen selse c t e)) :=
      .cons _ (.append (.refl _) (.cons _ (.append (.refl _) (List.sublist_cons_self _ _))))
    exact ⟨[c, t, e], rfl, by simpa using hsub⟩
  | lambda s sparam sdot param body =>
    have hsub : body.lexemes.Sublist (lexemes (.lambda s sparam sdot param body)) :=
      List.sublist_append_right [_, _, _] _
    exact ⟨[body], rfl, by simpa using hsub⟩

/-! ## The spans of a program -/

/-- The spans of a source with the given tokens nest around this expression: its own span is not
empty and goes from token to token, and it covers those of its children, which follow one
another. -/
structure Expr.SpanNests (ls : List Lexeme) (e : Expr) : Prop where
  start_lt_stop : e.span.start < e.span.stop
  onTokens : OnTokens ls e.span
  covers : ∀ d ∈ e.children, e.span.Covers d.span
  precedes : e.children.Pairwise fun d d' => d.span.Precedes d'.span

/-- The same of a statement, whose only child is its expression. -/
structure Stmt.SpanNests (ls : List Lexeme) (s : Stmt) : Prop where
  start_lt_stop : s.span.start < s.span.stop
  onTokens : OnTokens ls s.span
  covers : s.span.Covers s.value.span

section Tokens

variable {ls : List Lexeme} (hordered : Ordered ls)
  (hproper : ∀ l ∈ ls, l.span.start < l.span.stop)
include hordered hproper

/-- The spans of the tree of an expression nest around it. -/
theorem Concrete.spanNests_tree {c : Concrete} (hsub : c.lexemes.Sublist ls) :
    c.tree.SpanNests ls := by
  have hc := hordered.sublist hsub
  have hextends := c.span_tree hc
  obtain ⟨ds, hds, hchildren⟩ := c.exists_children
  refine ⟨hextends.start_lt_stop hc fun l hl => hproper l (hsub.subset hl),
    hextends.onTokens hsub.subset, ?_, ?_⟩
  · rw [← hds, List.forall_mem_map]
    intro d hd
    have hwithin : d.lexemes.Sublist c.lexemes := (sublist_flatMap_tokens hd).trans hchildren
    have htokens := (d.span_tree (hc.sublist hwithin)).onTokens hwithin.subset
    exact hextends.covers_of_onTokens hc htokens
  · rw [← hds, List.pairwise_map]
    exact pairwise_precedes (fun d => d.span_tree) (hc.sublist hchildren)

/-- The spans of the tree of a statement nest around it. -/
theorem ConcreteStmt.spanNests_tree {c : ConcreteStmt} (hsub : c.lexemes.Sublist ls) :
    c.tree.SpanNests ls := by
  have hc := hordered.sublist hsub
  have hextends := c.span_tree hc
  refine ⟨hextends.start_lt_stop hc fun l hl => hproper l (hsub.subset hl),
    hextends.onTokens hsub.subset, ?_⟩
  have hwithin := c.tokens_value
  have htokens := (c.value.span_tree (hc.of_within hwithin)).onTokens hwithin.subset
  rw [c.value_tree]
  exact hextends.covers_of_onTokens hc htokens

end Tokens

/-- **Spans nest and are ordered.** The statements of an accepted source follow one another. The
span of each statement and of each expression is not empty, begins where a token begins and ends
where a token ends, and covers those of its children; and the children of one expression follow one
another in the order of their fields. -/
theorem spans_nest_of_parse {source : String} {ls : List Lexeme} {p : Program}
    (hlex : lex source = .ok ls) (hparse : parse ls = .ok p) :
    (p.Pairwise fun s s' => s.span.Precedes s'.span) ∧
      (∀ s ∈ p, s.SpanNests ls) ∧ ∀ e ∈ Program.subterms p, e.SpanNests ls := by
  obtain ⟨ps, hps, rfl⟩ := Lexer.lexFrom_eq_ok_iff.mp hlex
  have hordered := (Lexer.ordered_place 0 ps).1
  have hproper := hps.start_lt_stop 0
  obtain ⟨cs, rfl, hreads⟩ := Parser.parse_eq_ok_iff.mp hparse
  obtain ⟨-, hcs⟩ := Parser.readsProgram_iff.mp hreads
  have hmem {c : ConcreteStmt} (hc : c ∈ cs) : c.lexemes.Sublist (Lexer.place 0 ps) :=
    hcs ▸ (ConcreteProgram.infix_of_mem hc).sublist
  refine ⟨?_, ?_, ?_⟩
  · have hlexemes : Ordered cs.lexemes := hcs ▸ hordered
    rw [ConcreteProgram.trees, List.pairwise_map]
    exact pairwise_precedes (fun c => c.span_tree) hlexemes
  · intro s hs
    obtain ⟨c, hc, rfl⟩ := List.mem_map.mp hs
    exact c.spanNests_tree hordered hproper (hmem hc)
  · intro e he
    obtain ⟨s, hs, he⟩ := List.mem_flatMap.mp he
    obtain ⟨c, hc, rfl⟩ := List.mem_map.mp hs
    rw [c.value_tree] at he
    obtain ⟨d, rfl, hd⟩ := Concrete.exists_of_mem_subterms he
    have hsub := (hd.tokens.trans c.tokens_value).sublist.trans (hmem hc)
    exact d.spanNests_tree hordered hproper hsub

/-- A function in parentheses with a body in two pairs of them, and two operators that look ahead to
their operand. -/
def wrappedFunction : String :=
  "define k as (lambda x . ((x + 1))) end puts k | not -2"

/-- The body of the function: its span is that of the outer pair of parentheses. -/
def wrappedBody : Expr :=
  .binary ⟨24, 33⟩ (.arith .add) (.name ⟨26, 27⟩ "x") (.integer ⟨30, 31⟩ 1)

/-- The statements of `wrappedFunction`. -/
def wrappedFunctionProgram : Program :=
  [.define ⟨0, 38⟩ "k" (.lambda ⟨12, 34⟩ "x" wrappedBody),
    .puts ⟨39, 54⟩ (.apply ⟨44, 54⟩ (.name ⟨44, 45⟩ "k")
      (.unary ⟨48, 54⟩ .not (.unary ⟨52, 54⟩ .negate (.integer ⟨53, 54⟩ 2))))]

/-- The spans of `wrappedFunction` nest, also where parentheses widen them. -/
theorem spans_nest_wrappedFunction :
    ∃ ls, lex wrappedFunction = .ok ls ∧ parse ls = .ok wrappedFunctionProgram ∧
      (wrappedFunctionProgram.Pairwise fun s s' => s.span.Precedes s'.span) ∧
      (∀ s ∈ wrappedFunctionProgram, s.SpanNests ls) ∧
      wrappedBody ∈ Program.subterms wrappedFunctionProgram ∧ wrappedBody.SpanNests ls := by
  have hread : readProgram wrappedFunction = .ok wrappedFunctionProgram :=
    readProgram_eq_ok_of_toOption (by decide +kernel)
  have hmem : wrappedBody ∈ Program.subterms wrappedFunctionProgram := by decide
  obtain ⟨ls, hlex, hparse⟩ := readProgram_eq_ok_iff.mp hread
  obtain ⟨hstatements, hnests, hexpressions⟩ := spans_nest_of_parse hlex hparse
  exact ⟨ls, hlex, hparse, hstatements, hnests, hmem, hexpressions _ hmem⟩

end Duet
