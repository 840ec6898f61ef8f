import Duet.Proofs.GrammarExactness

/-!
# Trees without spans

Trees are compared without their spans (`bare`). The reader does not look at spans either: tokens
that are those of an admissible expression, spans aside, are read as one expression statement
with the tree of that expression, spans aside (`parse_of_tokens_eq`). Whether a whole program is
accepted does not depend on spans (`exists_parse_eq_ok_of_tokens_eq`).

Taking the spans away is a case of replacing every span by its image under a function (`mapSpan`),
which leaves alone whether an expression follows the grammar, and which goes from the tokens to the
nodes if the function respects `Span.merge` (`Concrete.tree_mapSpan`).
-/

namespace Duet

/-! ## Replacing spans -/

/-- The token with its span replaced by its image under `f`. -/
def Lexeme.mapSpan (f : Span → Span) (l : Lexeme) : Lexeme :=
  ⟨l.token, f l.span⟩

namespace Expr

variable (f : Span → Span)

@[simp] theorem span_mapSpan (e : Expr) : (e.mapSpan f).span = f e.span := by
  cases e <;> rfl

/-- A span that is given to a node is changed with the spans of the node. -/
theorem mapSpan_withSpan (e : Expr) (s : Span) :
    (e.withSpan s).mapSpan f = (e.mapSpan f).withSpan (f s) := by
  cases e <;> rfl

end Expr

namespace Concrete

/-- The expression with the spans of its tokens replaced by their images under `f`. -/
def mapSpan (f : Span → Span) : Concrete → Concrete
  | .integer s value => .integer (f s) value
  | .text s value => .text (f s) value
  | .boolean s value => .boolean (f s) value
  | .nil s => .nil (f s)
  | .name s x => .name (f s) x
  | .paren opening closing e => .paren (f opening) (f closing) (e.mapSpan f)
  | .unary s op e => .unary (f s) op (e.mapSpan f)
  | .binary s op l r => .binary (f s) op (l.mapSpan f) (r.mapSpan f)
  | .ifThen sif sthen c t => .ifThen (f sif) (f sthen) (c.mapSpan f) (t.mapSpan f)
  | .ifElse sif sthen selse c t e =>
    .ifElse (f sif) (f sthen) (f selse) (c.mapSpan f) (t.mapSpan f) (e.mapSpan f)
  | .lambda s sparam sdot param body => .lambda (f s) (f sparam) (f sdot) param (body.mapSpan f)
  | .apply s g a => .apply (f s) (g.mapSpan f) (a.mapSpan f)

variable (f : Span → Span)

/-- The tokens of a tree with changed spans are those of the tree, with changed spans. -/
theorem lexemes_mapSpan (c : Concrete) :
    (c.mapSpan f).lexemes = c.lexemes.map (Lexeme.mapSpan f) := by
  induction c <;> simp_all [mapSpan, lexemes, Lexeme.mapSpan]

@[simp] theorem level?_mapSpan (c : Concrete) : (c.mapSpan f).level? = c.level? := by
  cases c <;> rfl

@[simp] theorem isAtom_mapSpan (c : Concrete) : (c.mapSpan f).isAtom = c.isAtom := by
  cases c <;> rfl

@[simp] theorem endsOpen_mapSpan (c : Concrete) : (c.mapSpan f).endsOpen = c.endsOpen := by
  induction c <;> simp_all [mapSpan, endsOpen]

@[simp] theorem endsShort_mapSpan (c : Concrete) : (c.mapSpan f).endsShort = c.endsShort := by
  induction c <;> simp_all [mapSpan, endsShort]

/-- Spans do not matter for what the grammar admits. -/
theorem admissible_mapSpan_iff (c : Concrete) : (c.mapSpan f).Admissible ↔ c.Admissible := by
  induction c <;> simp_all [mapSpan, Admissible, Above]

/-- The span of the last token is changed as all others are. -/
@[simp] theorem lastSpan_mapSpan (c : Concrete) : (c.mapSpan f).lastSpan = f c.lastSpan := by
  induction c <;> simp_all [mapSpan, lastSpan]

/-- Nodes are moved as their tokens are. -/
theorem tree_mapSpan {f : Span → Span} (hf : ∀ a b : Span, f (a.merge b) = (f a).merge (f b))
    (c : Concrete) : (c.mapSpan f).tree = c.tree.mapSpan f := by
  induction c with
  | integer | text | boolean | nil | name => rfl
  | paren opening closing e ih => simp only [mapSpan, tree, ih, hf, Expr.mapSpan_withSpan]
  | unary s op e ih | lambda s sparam sdot param e ih =>
    simp only [mapSpan, tree, Expr.mapSpan, ih, hf, lastSpan_mapSpan]
  | binary s op l r ihl ihr | apply s l r ihl ihr =>
    simp only [mapSpan, tree, Expr.mapSpan, ihl, ihr, hf, Expr.span_mapSpan]
  | ifThen sif sthen c t ihc iht =>
    simp only [mapSpan, tree, Expr.mapSpan, ihc, iht, hf, lastSpan_mapSpan]
  | ifElse sif sthen selse c t e ihc iht ihe =>
    simp only [mapSpan, tree, Expr.mapSpan, ihc, iht, ihe, hf, lastSpan_mapSpan]

end Concrete

/-! ## Taking spans away -/

/-- The span of a node whose place does not matter. -/
def Span.nowhere : Span := .empty 0

/-- The expression without its spans. -/
def Expr.bare (e : Expr) : Expr :=
  e.mapSpan fun _ => .nowhere

@[simp] theorem Expr.span_bare (e : Expr) : e.bare.span = .nowhere := by
  cases e <;> rfl

@[simp] theorem Expr.withSpan_bare (e : Expr) : e.bare.withSpan .nowhere = e.bare := by
  cases e <;> rfl

@[simp] theorem Expr.bare_bare (e : Expr) : e.bare.bare = e.bare := by
  induction e <;> simp_all [bare, mapSpan]

namespace Concrete

/-- The tokens of an expression, spans aside. -/
def tokens (c : Concrete) : List Token :=
  c.lexemes.map (·.token)

/-- The concrete tree without its spans. -/
def bare (c : Concrete) : Concrete :=
  c.mapSpan fun _ => .nowhere

/-- Whether an expression follows the grammar does not depend on its spans. -/
theorem admissible_bare_iff (c : Concrete) : c.bare.Admissible ↔ c.Admissible :=
  admissible_mapSpan_iff _ c

/-- The spans may be taken away before or after the parentheses. -/
theorem tree_bare (c : Concrete) : c.bare.tree = c.tree.bare :=
  tree_mapSpan (fun _ _ => (Span.merge_self _).symm) c

/-- Tokens that are those of a tree, spans aside, are the tokens of that tree, spans aside. -/
theorem exists_lexemes_eq {c : Concrete} {ls : List Lexeme} (h : ls.map (·.token) = c.tokens) :
    ∃ c' : Concrete, c'.lexemes = ls ∧ c'.bare = c.bare := by
  unfold bare
  induction c generalizing ls with
  | integer s v =>
    obtain ⟨⟨_, s'⟩, rfl, rfl⟩ := List.map_eq_singleton_iff.mp h
    exact ⟨.integer s' v, rfl, rfl⟩
  | text s v =>
    obtain ⟨⟨_, s'⟩, rfl, rfl⟩ := List.map_eq_singleton_iff.mp h
    exact ⟨.text s' v, rfl, rfl⟩
  | boolean s v =>
    obtain ⟨⟨_, s'⟩, rfl, rfl⟩ := List.map_eq_singleton_iff.mp h
    exact ⟨.boolean s' v, rfl, rfl⟩
  | nil s =>
    obtain ⟨⟨_, s'⟩, rfl, rfl⟩ := List.map_eq_singleton_iff.mp h
    exact ⟨.nil s', rfl, rfl⟩
  | name s x =>
    obtain ⟨⟨_, s'⟩, rfl, rfl⟩ := List.map_eq_singleton_iff.mp h
    exact ⟨.name s' x, rfl, rfl⟩
  | paren opening closing e ih =>
    simp only [tokens, lexemes, List.map_cons, List.map_append, List.map_nil, List.map_eq_cons_iff,
      List.map_eq_append_iff, List.map_eq_nil_iff] at h
    obtain ⟨⟨_, s⟩, _, rfl, rfl, _, _, rfl, he, ⟨_, s'⟩, _, rfl, rfl, rfl⟩ := h
    obtain ⟨e', rfl, be⟩ := ih he
    exact ⟨.paren s s' e', rfl, by simp only [mapSpan, be]⟩
  | unary s op e ih =>
    simp only [tokens, lexemes, List.map_cons, List.map_eq_cons_iff] at h
    obtain ⟨⟨_, s⟩, _, rfl, rfl, he⟩ := h
    obtain ⟨e', rfl, be⟩ := ih he
    exact ⟨.unary s op e', rfl, by simp only [mapSpan, be]⟩
  | binary s op l r ihl ihr =>
    simp only [tokens, lexemes, List.map_cons, List.map_append, List.map_eq_cons_iff,
      List.map_eq_append_iff] at h
    obtain ⟨_, _, rfl, hl, ⟨_, s⟩, _, rfl, rfl, hr⟩ := h
    obtain ⟨l', rfl, bl⟩ := ihl hl
    obtain ⟨r', rfl, br⟩ := ihr hr
    exact ⟨.binary s op l' r', rfl, by simp only [mapSpan, bl, br]⟩
  | ifThen sif sthen c t ihc iht =>
    simp only [tokens, lexemes, List.map_cons, List.map_append, List.map_eq_cons_iff,
      List.map_eq_append_iff] at h
    obtain ⟨⟨_, s⟩, _, rfl, rfl, _, _, rfl, hc, ⟨_, s'⟩, _, rfl, rfl, ht⟩ := h
    obtain ⟨c', rfl, bc⟩ := ihc hc
    obtain ⟨t', rfl, bt⟩ := iht ht
    exact ⟨.ifThen s s' c' t', rfl, by simp only [mapSpan, bc, bt]⟩
  | ifElse sif sthen selse c t e ihc iht ihe =>
    simp only [tokens, lexemes, List.map_cons, List.map_append, List.map_eq_cons_iff,
      List.map_eq_append_iff] at h
    obtain ⟨⟨_, s⟩, _, rfl, rfl, _, _, rfl, hc, ⟨_, s'⟩, _, rfl, rfl, _, _, rfl, ht,
      ⟨_, s''⟩, _, rfl, rfl, he⟩ := h
    obtain ⟨c', rfl, bc⟩ := ihc hc
    obtain ⟨t', rfl, bt⟩ := iht ht
    obtain ⟨e', rfl, be⟩ := ihe he
    exact ⟨.ifElse s s' s'' c' t' e', rfl, by simp only [mapSpan, bc, bt, be]⟩
  | lambda s sparam sdot param body ih =>
    simp only [tokens, lexemes, List.map_cons, List.map_eq_cons_iff] at h
    obtain ⟨⟨_, s⟩, _, rfl, rfl, ⟨_, s'⟩, _, rfl, rfl, ⟨_, s''⟩, _, rfl, rfl, hbody⟩ := h
    obtain ⟨body', rfl, bbody⟩ := ih hbody
    exact ⟨.lambda s s' s'' param body', rfl, by simp only [mapSpan, bbody]⟩
  | apply s f a ihf iha =>
    simp only [tokens, lexemes, List.map_cons, List.map_append, List.map_eq_cons_iff,
      List.map_eq_append_iff] at h
    obtain ⟨_, _, rfl, hf, ⟨_, s⟩, _, rfl, rfl, ha⟩ := h
    obtain ⟨f', rfl, bf⟩ := ihf hf
    obtain ⟨a', rfl, ba⟩ := iha ha
    exact ⟨.apply s f' a', rfl, by simp only [mapSpan, bf, ba]⟩

end Concrete

/-- Tokens that are those of one admissible expression, spans aside, are read as one expression
statement with the tree of that expression, spans aside. -/
theorem parse_of_tokens_eq {c : Concrete} (hadm : c.Admissible) {ls : List Lexeme}
    (h : ls.map (·.token) = c.tokens) :
    ∃ e : Expr, parse ls = .ok [.expression e] ∧ e.bare = c.tree.bare := by
  obtain ⟨c', rfl, hbare⟩ := Concrete.exists_lexemes_eq h
  have hadm' : c'.Admissible := by
    rw [← c'.admissible_bare_iff, hbare, c.admissible_bare_iff]
    exact hadm
  refine ⟨c'.tree, ?_, ?_⟩
  · have hprogram : ConcreteProgram.Admissible [.expression c'] := ⟨hadm', nofun, trivial⟩
    refine Parser.parse_eq_ok_iff.mpr ⟨[.expression c'], rfl, ?_⟩
    exact Parser.readsProgram_iff.mpr ⟨hprogram, List.append_nil _⟩
  · rw [← c'.tree_bare, hbare, c.tree_bare]

/-! ## Statements and programs -/

/-- Tokens that are those of a statement, spans aside, are the tokens of that statement, spans
aside. -/
theorem ConcreteStmt.exists_lexemes_eq {c : ConcreteStmt} {ls : List Lexeme}
    (h : ls.map (·.token) = c.lexemes.map (·.token)) :
    ∃ c' : ConcreteStmt, c'.lexemes = ls ∧ c'.value.bare = c.value.bare ∧ c'.isClosed = c.isClosed := by
  cases c with
  | define s sname sas x value closing =>
    simp only [lexemes, List.map_cons, List.map_append, List.map_eq_cons_iff,
      List.map_eq_append_iff] at h
    obtain ⟨⟨_, s⟩, _, rfl, rfl, ⟨_, s'⟩, _, rfl, rfl, ⟨_, s''⟩, _, rfl, rfl, _, tail, rfl, hvalue,
      htail⟩ := h
    obtain ⟨value', rfl, hbare⟩ := Concrete.exists_lexemes_eq hvalue
    cases closing with
    | none =>
      obtain rfl := List.map_eq_nil_iff.mp htail
      exact ⟨.define s s' s'' x value' none, rfl, hbare, rfl⟩
    | some send =>
      obtain ⟨⟨_, send'⟩, rfl, rfl⟩ := List.map_eq_singleton_iff.mp htail
      exact ⟨.define s s' s'' x value' (some send'), rfl, hbare, rfl⟩
  | puts s value =>
    obtain ⟨⟨_, s⟩, _, rfl, rfl, hvalue⟩ := List.map_eq_cons_iff.mp h
    obtain ⟨value', rfl, hbare⟩ := Concrete.exists_lexemes_eq hvalue
    exact ⟨.puts s value', rfl, hbare, rfl⟩
  | expression value =>
    obtain ⟨value', rfl, hbare⟩ := Concrete.exists_lexemes_eq h
    exact ⟨.expression value', rfl, hbare, rfl⟩

namespace ConcreteProgram

/-- Whether the first statement begins with a minus sign is seen from the first token. -/
theorem beginsWithMinus_head?_iff {cs : ConcreteProgram} :
    (∀ next ∈ cs.head?, next.beginsWithMinus = false) ↔
      (cs.lexemes.map (·.token)).head? ≠ some (.symbol .minus) := by
  cases cs with
  | nil => simp [lexemes]
  | cons c cs =>
    obtain ⟨l, ts, hts, -⟩ := Parser.begins_head c
    simp [lexemes, ConcreteStmt.beginsWithMinus, hts]

/-- Tokens that are those of an admissible program, spans aside, are the tokens of one. -/
theorem exists_lexemes_eq {cs : ConcreteProgram} (hadm : cs.Admissible) {ls : List Lexeme}
    (h : ls.map (·.token) = cs.lexemes.map (·.token)) :
    ∃ cs' : ConcreteProgram, cs'.lexemes = ls ∧ cs'.Admissible := by
  induction cs generalizing ls with
  | nil =>
    obtain rfl := List.map_eq_nil_iff.mp h
    exact ⟨[], rfl, trivial⟩
  | cons c cs ih =>
    obtain ⟨hvalue, hnext, hcs⟩ := hadm
    simp only [lexemes, List.flatMap_cons, List.map_append, List.map_eq_append_iff] at h
    obtain ⟨_, _, rfl, hfirst, hrest⟩ := h
    obtain ⟨c', rfl, hbare, hclosed⟩ := ConcreteStmt.exists_lexemes_eq hfirst
    obtain ⟨cs', rfl, hcs'⟩ := ih hcs hrest
    refine ⟨c' :: cs', rfl, ?_, fun hopen => ?_, hcs'⟩
    · rw [← c'.value.admissible_bare_iff, hbare, c.value.admissible_bare_iff]
      exact hvalue
    · rw [beginsWithMinus_head?_iff, hrest]
      exact beginsWithMinus_head?_iff.mp (hnext (hclosed ▸ hopen))

end ConcreteProgram

/-- Whether tokens are accepted does not depend on their spans. -/
theorem exists_parse_eq_ok_of_tokens_eq {ls ls' : List Lexeme} {p : Program} (hparse : parse ls = .ok p)
    (h : ls'.map (·.token) = ls.map (·.token)) : ∃ p', parse ls' = .ok p' := by
  obtain ⟨cs, -, hread⟩ := Parser.parse_eq_ok_iff.mp hparse
  obtain ⟨hadm, rfl⟩ := Parser.readsProgram_iff.mp hread
  obtain ⟨cs', hlexemes, hadm'⟩ := ConcreteProgram.exists_lexemes_eq hadm h
  exact ⟨cs'.trees,
    Parser.parse_eq_ok_iff.mpr ⟨cs', rfl, Parser.readsProgram_iff.mpr ⟨hadm', hlexemes⟩⟩⟩

end Duet
